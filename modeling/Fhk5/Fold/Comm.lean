import Fhk5.Fold.Refold

/-!
# Commutative canonicalisation lets CSE ignore operand order

The swap arm of `fold` puts the inputs of `ADD` and `MUL` in one order: constants to the
right, other inputs by ascending new id.  So an `ADD` or `MUL` and the same instruction with
its operands swapped fold to one instruction, and `cse_map` then merges them when it is
`is_cse` (`Fold.run_comm_cse`).  The two are visited at different times of a run; the run
invariant of `Fold/Refold.lean` makes the outcomes comparable: refolded at the final
buffers, each renamed instruction stops at what the run recorded for it.  At one pool and
code, `foldStop` stops at the same status for an instruction and its swap
(`foldStop_swapInputs`).  `Fcx.Refolds` is the run invariant read at the visited `ADD`s and
`MUL`s.

Throughout, the type is no float: the constant arm at a float type folds with `f64`
operations, whose commutativity the model does not state.
-/
namespace Fhk5

variable {T : OpTable} {debug : Bool} {p p' q : Intern} {code code' : List Ins} {r : Ins} {st : FoldStatus}

/-- What the loop on an arithmetic instruction stops at has no control slots. -/
theorem foldStop_done_controls {fuel : Nat} {i : Ins} (hr : r.opcode.isArith)
    (h : foldStop T debug fuel p code r = .ok (p', .Done i)) : i.opcode.controls T = [] := by
  induction fuel generalizing p r with
  | zero => cases h
  | succ fuel ih =>
    rw [foldStop] at h
    rcases hf : fold T debug p code r with e | ⟨p₁, j | j | m⟩ <;> rw [hf] at h
    · cases h
    · cases h
      rcases (fold_done_normal hf).2 with ⟨hl, -⟩ | rfl
      · exact (Opcode.controls_of_ne_op (Opcode.ne_op_of_isLiteral hl)).2
      · exact (Opcode.controls_of_ne_op (Opcode.ne_op_of_isArith hr)).2
    · obtain ⟨-, rfl, -, -⟩ := fold_again hf
      exact ih (by simpa using hr) h
    · cases h

/-! ## Swapped inputs -/

@[simp] theorem Ins.swapInputs_swapInputs (ins : Ins) : ins.swapInputs.swapInputs = ins := rfl

theorem Ins.swapInputs_of_eq {ins : Ins} (h : ins.a = ins.b) : ins.swapInputs = ins := by
  obtain ⟨o, t, a, b, c⟩ := ins
  simp only [Ins.swapInputs] at h ⊢
  rw [h]

/-- The constant arm of `ADD` or `MUL` at a type that is no float reads its operands in
either order: the overflow check is symmetric, and both reads fail only by panicking. -/
theorem foldConst_swap {op : Opcode} {ty : Ty} (hc : op.isComm) (hf : ty.isFloat = false)
    (left right : Ins) : foldConst debug p op ty left right = foldConst debug p op ty right left := by
  have hcore : (do
      let l ← kintvalue p left
      let r ← kintvalue p right
      let v ← foldintarith debug op l r
      pure (newkint p ty v) : Except Halt (Intern × Ins)) = (do
      let l ← kintvalue p right
      let r ← kintvalue p left
      let v ← foldintarith debug op l r
      pure (newkint p ty v)) := by
    rcases hl : kintvalue p left with el | vl <;> rcases hr : kintvalue p right with er | vr
    · rw [kintvalue_error hl, kintvalue_error hr]
    · rw [kintvalue_error hl]; rfl
    · rw [kintvalue_error hr]; rfl
    · simp only [bind, Except.bind, foldintarith_swap hc vl vr]
  unfold foldConst
  rw [Bool.or_comm (left.ty != ty)]
  simp only [hf, Bool.false_eq_true, if_false, hcore]

theorem fold_swapInputs_of_foldsConst (hc : r.opcode.isComm) (hf : r.ty.isFloat = false)
    (hfc : foldsConst T code r) : fold T debug p code r.swapInputs = fold T debug p code r := by
  have hfc' : foldsConst T code r.swapInputs := foldsConst_swapInputs.trans hfc
  unfold fold
  rw [if_pos hfc, if_pos hfc']
  simp only [Ins.a_swapInputs, Ins.b_swapInputs, Ins.opcode_swapInputs, Ins.ty_swapInputs]
  cases code[r.a]? <;> cases code[r.b]? <;> simp only [foldConst_swap hc hf]

/-- An `ADD` or `MUL` whose inputs are not both constants and that stays as it is, swapped,
is swapped back unless its inputs are one id. -/
theorem swapsInputs_swapInputs_of_ne (hc : r.opcode.isComm) (hfc : foldsConst T code r = false)
    (hs : swapsInputs T code r = false) (hne : r.a ≠ r.b) : swapsInputs T code r.swapInputs := by
  have har : r.opcode.isArith := by revert hc; cases r.opcode <;> simp [Opcode.isComm, Opcode.isArith]
  simp only [swapsInputs, foldsConst, hc, har, Ins.opcode_swapInputs, Ins.a_swapInputs,
    Ins.b_swapInputs, Bool.true_and] at hfc hs ⊢
  cases ha : isConstAt T code r.a <;> cases hb : isConstAt T code r.b <;> simp_all
  omega

/-- With the inputs of an `ADD` or `MUL` at a type that is no float swapped, the loop around
`fold` stops at the same pool and status. -/
theorem foldStop_swapInputs {fuel : Nat} (hc : r.opcode.isComm) (hf : r.ty.isFloat = false)
    (h : foldStop T debug fuel p code r = .ok (p', st)) :
    ∃ fuel', foldStop T debug fuel' p code r.swapInputs = .ok (p', st) := by
  obtain _ | fuel := fuel
  · cases h
  by_cases hfc : foldsConst T code r
  · -- both fold their constants, in either order
    refine ⟨fuel + 1, ?_⟩
    rw [foldStop, fold_swapInputs_of_foldsConst hc hf hfc]
    rwa [foldStop] at h
  replace hfc : foldsConst T code r = false := by simpa using hfc
  by_cases hs : swapsInputs T code r
  · -- the loop swaps `r` first
    have hr : fold T debug p code r = .ok (p, .Again r.swapInputs) := by
      rw [fold, if_neg (by simp [hfc]), if_pos hs]
    rw [foldStop, hr] at h
    exact ⟨fuel, h⟩
  replace hs : swapsInputs T code r = false := by simpa using hs
  by_cases hab : r.a = r.b
  · exact ⟨fuel + 1, by rwa [Ins.swapInputs_of_eq hab]⟩
  · -- the loop swaps `r.swapInputs` back to `r`
    have hr : fold T debug p code r.swapInputs = .ok (p, .Again r) := by
      rw [fold, if_neg (by simp [foldsConst_swapInputs, hfc]),
        if_pos (swapsInputs_swapInputs_of_ne hc hfc hs hab), Ins.swapInputs_swapInputs]
    refine ⟨fuel + 2, ?_⟩
    rw [foldStop, hr]
    exact h

/-- Every visited `ADD` or `MUL` of `f` at a type that is no float has its inputs visited,
and its renamed instruction refolds at its recorded id. -/
def Fcx.Refolds (T : OpTable) (debug : Bool) (f : Func) (s : Fcx) : Prop :=
  ∀ {id m : Nat} {ins : Ins}, f.code[id]? = some ins → ins.opcode.isComm →
    ins.ty.isFloat = false → s.oldNew[id]? = some (some m) →
    (∀ x ∈ ins.inputs T, s.Visited x) ∧
      s.RefoldsAt T debug (ins.mapSlots s.newId (ins.opcode.inputs T)) m

theorem Ins.mapSlots_of_isComm (g : Nat → Nat) {ins : Ins} (hc : ins.opcode.isComm) :
    ins.mapSlots g (ins.opcode.inputs T) = { ins with a := g ins.a, b := g ins.b } := by
  rw [Opcode.inputs_of_isComm hc]; rfl

theorem Ins.mapSlots_swapInputs (g : Nat → Nat) {ins : Ins} (hc : ins.opcode.isComm) :
    ins.swapInputs.mapSlots g (ins.swapInputs.opcode.inputs T) =
      (ins.mapSlots g (ins.opcode.inputs T)).swapInputs := by
  rw [Ins.mapSlots_of_isComm g hc, Ins.mapSlots_of_isComm g (by simpa using hc)]; rfl

variable {f : Func} {s t : Fcx}

/-- The buffers `Fold::run` leaves keep the invariant. -/
theorem Fold.run_refolds (ha : f.Acyclic T) {g : Func} (h : Fold.run T debug p f = .ok (s, g)) :
    s.Refolds T debug f :=
  fun hins _ _ hm => Fold.run_refoldsAll ha h hins hm

/-- Commutative canonicalisation lets CSE ignore operand order.  Take two instructions of
`f` reachable from the entry: an `ADD` or `MUL` at an integer type, and the same instruction
with its two operands swapped.  The code `Fold::run` returns holds one instruction at both
their new ids, and the new ids are one when that instruction is `is_cse`. -/
theorem Fold.run_comm_cse (ha : f.Acyclic T) {g : Func} (h : Fold.run T debug p f = .ok (s, g))
    {i j : Nat} {ins : Ins} (hi : f.Reach T i) (hj : f.Reach T j) (hins : f.code[i]? = some ins)
    (hjns : f.code[j]? = some ins.swapInputs) (hc : ins.opcode.isComm) (hty : ins.ty.isInt) :
    ∃ mi mj I, s.oldNew[i]? = some (some mi) ∧ s.oldNew[j]? = some (some mj) ∧
      g.code[mi]? = some I ∧ g.code[mj]? = some I ∧ (I.opcode.isCse T → mi = mj) := by
  obtain ⟨hw, hreach, hlen, -, -⟩ := Fold.run_spec ha h
  have hf : ins.ty.isFloat = false := by revert hty; cases ins.ty <;> simp [Ty.isInt, Ty.isFloat]
  obtain ⟨mi, hmi⟩ := (hreach i).mpr hi
  obtain ⟨mj, hmj⟩ := (hreach j).mpr hj
  obtain ⟨-, sti, hsti, hfi⟩ := Fold.run_refolds ha h hins hc hf hmi
  obtain ⟨-, stj, hstj, hfj⟩ := Fold.run_refolds ha h hjns (by simpa using hc) (by simpa using hf) hmj
  -- refolded at the final buffers, the two stop at one status
  obtain ⟨fi, qi, hqi⟩ := hfi s.intern s.code (Intern.Le.refl _) (List.prefix_refl _)
  obtain ⟨fj, qj, hqj⟩ := hfj s.intern s.code (Intern.Le.refl _) (List.prefix_refl _)
  rw [Ins.mapSlots_swapInputs _ hc] at hqj
  obtain ⟨fi', hqi'⟩ := foldStop_swapInputs (by simpa using hc) (by simpa using hf) hqi
  obtain rfl : sti = stj := congrArg Prod.snd (foldStop_det hqi' hqj)
  rcases hsti with rfl | ⟨I, rfl, hI⟩
  · -- both collapse to one id of the new code
    obtain rfl : mi = mj := by
      rcases hstj with h' | ⟨_, h', _⟩ <;> cases h'; rfl
    obtain ⟨I, hI⟩ : ∃ I, g.code[mi]? = some I := ⟨_, List.getElem?_eq_getElem (hlen ▸ hw.lt hmi)⟩
    exact ⟨mi, mi, I, hmi, hmj, hI, hI, fun _ => rfl⟩
  · obtain ⟨_, he, hJ⟩ := hstj.resolve_left (by simp)
    cases he
    have hnc := foldStop_done_controls (by simpa using Opcode.isArith_of_isIntArith (Opcode.isIntArith_of_isComm hc)) hqi
    exact ⟨mi, mj, I, hmi, hmj, Fold.run_getElem?_of_controls ha h hI hnc,
      Fold.run_getElem?_of_controls ha h hJ hnc, fun hcse => hw.cseUniq hI hJ hcse⟩

/-- The function `v0 = PARAM 0; v1 = PARAM 1; v2 = ADD v0 v1; v3 = ADD v1 v0;
v4 = SUB v2 v3; RET v4` over `OpTable.sample`, with an addition and its swap. -/
def Func.sampleComm : Func :=
  ⟨[⟨.op 3, .I32, 0, 0, 0⟩, ⟨.op 3, .I32, 1, 0, 0⟩, ⟨.ADD, .I32, 0, 1, 0⟩, ⟨.ADD, .I32, 1, 0, 0⟩,
    ⟨.SUB, .I32, 2, 3, 0⟩, ⟨.op 0, .FX, 4, 0, 0⟩], 5⟩

theorem Fold.run_comm_cse_sample :
    Func.sampleComm.Acyclic OpTable.sample ∧ ∃ s g,
      Fold.run OpTable.sample false ⟨[]⟩ Func.sampleComm = .ok (s, g) ∧
      ∃ mi mj I, s.oldNew[2]? = some (some mi) ∧ s.oldNew[3]? = some (some mj) ∧
        g.code[mi]? = some I ∧ g.code[mj]? = some I ∧ (I.opcode.isCse OpTable.sample → mi = mj) := by
  have ha : Func.sampleComm.Acyclic OpTable.sample := Func.Topo.acyclic _ (by decide)
  obtain ⟨s, g, hrun⟩ : ∃ s g, Fold.run OpTable.sample false ⟨[]⟩ Func.sampleComm = .ok (s, g) :=
    ⟨_, _, rfl⟩
  have h4 : Func.sampleComm.Reach OpTable.sample 4 := .edge .entry rfl (by decide)
  exact ⟨ha, s, g, hrun, Fold.run_comm_cse ha hrun (.edge h4 rfl (by decide))
    (.edge h4 rfl (by decide)) rfl rfl rfl rfl⟩

end Fhk5
