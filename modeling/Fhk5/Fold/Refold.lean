import Fhk5.Fold.Meaning

/-!
# Refolding: value numbering is complete

`visit` folds the renamed instruction of a node once, when its inputs are visited, and
records what the loop around `fold` stops at.  `foldStop` is that loop up to the arm it
leaves by.  It reads the code only at the inputs of the instruction (`fold_congr_inputs`)
and the pool only through constants already in it (`foldConst_of_le`), and during a run
both only grow.  So the status a node stopped at when it was visited is the status its
renamed instruction stops at in every later pool and code (`foldStop_of_le`).  The run
invariant `Fcx.RefoldsAll` says so of every visited node; every node step keeps it.

Two reachable nodes whose instructions rename to one instruction (the same opcode, type
and other slots, and inputs with the same new ids) therefore stop at one status.  The code
`Fold::run` returns holds one instruction at their new ids, and the ids are one when that
instruction is `is_cse` (`Fold.run_congruent`): value numbering through `cse_map` misses
no congruent pair, whichever of the two is visited first.
-/

namespace Fhk5

variable (T : OpTable)

/-- The loop around `fold` in `visit` up to the arm it leaves by: the pool and the `New` or
`Done` status of its last `fold`. -/
def foldStop (debug : Bool) : Nat → Intern → List Ins → Ins → Except Halt (Intern × FoldStatus)
  | 0, _, _, _ => .error .fuel
  | n + 1, p, code, ins =>
    match fold T debug p code ins with
    | .ok (p, .Again ins) => foldStop debug n p code ins
    | r => r

variable {T} {debug : Bool} {p p' q : Intern} {code code' : List Ins} {r : Ins} {st : FoldStatus}

/-! ## The loop around `fold` -/

theorem Fcx.intern_done (s : Fcx) (i : Ins) : (s.done T i).1.intern = s.intern := by
  rcases done_cases T s i with ⟨-, idx, -, -, h⟩ | ⟨-, h⟩ <;> simp [h]

/-- The loop of `visit` stops where `foldStop` stops, with the pool it returns: at `New n`,
or at `Done i` with `i` at index `n` of the new code. -/
theorem foldLoop_ok {fuel n : Nat} {s u : Fcx} {ins : Ins}
    (h : s.foldLoop T debug fuel ins = .ok (u, n)) :
    ∃ st, foldStop T debug fuel s.intern s.code ins = .ok (u.intern, st) ∧
      (st = .New n ∨ ∃ i, st = .Done i ∧ u.code[n]? = some i) := by
  induction fuel generalizing s ins with
  | zero => cases h
  | succ fuel ih =>
    unfold Fcx.foldLoop at h
    rw [foldStop]
    split at h
    · cases h
    · rename_i p i hf
      rw [hf]
      exact ih h
    · rename_i p m hf
      cases h
      rw [hf]
      exact ⟨_, rfl, .inl rfl⟩
    · rename_i p i hf
      rw [hf]
      obtain ⟨rfl, rfl⟩ : (Fcx.done T { s with intern := p } i).1 = u ∧
          (Fcx.done T { s with intern := p } i).2 = n := by
        rw [Except.ok.inj h]; exact ⟨rfl, rfl⟩
      exact ⟨_, by rw [Fcx.intern_done], .inr ⟨i, rfl, Fcx.getElem?_done _ _⟩⟩

/-- The loop stops at one pool and status, whatever fuel it is given. -/
theorem foldStop_det {fuel fuel' : Nat} {x y : Intern × FoldStatus}
    (h : foldStop T debug fuel p code r = .ok x) (h' : foldStop T debug fuel' p code r = .ok y) :
    x = y := by
  induction fuel generalizing fuel' p r with
  | zero => cases h
  | succ fuel ih =>
    cases fuel' with
    | zero => cases h'
    | succ fuel' =>
      rw [foldStop] at h h'
      rcases hf : fold T debug p code r with e | ⟨p₁, i | i | m⟩ <;> rw [hf] at h h'
      · cases h
      · exact Except.ok.inj (h.symm.trans h')
      · exact ih h h'
      · exact Except.ok.inj (h.symm.trans h')

theorem le_foldStop {fuel : Nat} (h : foldStop T debug fuel p code r = .ok (p', st)) : p.Le p' := by
  induction fuel generalizing p r with
  | zero => cases h
  | succ fuel ih =>
    rw [foldStop] at h
    rcases hf : fold T debug p code r with e | ⟨p₁, i | i | m⟩ <;> rw [hf] at h
    · cases h
    · cases h; exact le_fold hf
    · exact (le_fold hf).trans (ih h)
    · cases h; exact le_fold hf

/-! ## What `fold` reads -/

/-- `fold` reads the code only at the first two slots. -/
theorem fold_congr (ha : code'[r.a]? = code[r.a]?) (hb : code'[r.b]? = code[r.b]?) :
    fold T debug p code' r = fold T debug p code r := by
  simp only [fold, foldsConst, swapsInputs, isAddZero, isMulOne, isMulZero, isConstAt, isKintAt, ha, hb]

/-- `fold` reads the code only at the inputs of the instruction: both slots of an arithmetic
instruction, the operand of a `MOV`, and nothing for any other opcode. -/
theorem fold_congr_inputs (h : ∀ x ∈ r.inputs T, code'[x]? = code[x]?) :
    fold T debug p code' r = fold T debug p code r := by
  by_cases ha : r.opcode.isArith
  · rw [Ins.inputs_of_isArith ha] at h
    exact fold_congr (h _ (by simp)) (h _ (by simp))
  replace ha : r.opcode.isArith = false := by simpa using ha
  by_cases hm : r.opcode = .MOV
  · have hx : code'[r.a]? = code[r.a]? := h _ (Ins.a_mem_inputs (.inr hm))
    simp [fold, foldsConst, swapsInputs, isAddZero, isMulOne, isMulZero, hm, Opcode.isArith,
      Opcode.isComm, hx]
  · rw [fold_of_normal (normal_of_not_isArith ha hm), fold_of_normal (normal_of_not_isArith ha hm)]

/-- Only the constant arm of `fold` reads the pool. -/
theorem fold_pool (hfc : foldsConst T code r = false) :
    fold T debug q code r = (fun x => (q, x.2)) <$> fold T debug p code r := by
  have h₀ : ¬foldsConst T code r := by simp [hfc]
  unfold fold
  rw [if_neg h₀, if_neg h₀]
  -- each arm after the constant one returns the pool it was given
  by_cases h₁ : swapsInputs T code r
  · rw [if_pos h₁, if_pos h₁]; rfl
  rw [if_neg h₁, if_neg h₁]
  by_cases h₂ : isAddZero code r
  · rw [if_pos h₂, if_pos h₂]; rfl
  rw [if_neg h₂, if_neg h₂]
  by_cases h₃ : isMulOne code r
  · rw [if_pos h₃, if_pos h₃]; rfl
  rw [if_neg h₃, if_neg h₃]
  by_cases h₄ : isMulZero code r
  · rw [if_pos h₄, if_pos h₄]; rfl
  rw [if_neg h₄, if_neg h₄]
  by_cases h₅ : r.opcode = .MOV
  · rw [if_pos h₅, if_pos h₅]
    split <;> rfl
  rw [if_neg h₅, if_neg h₅]; rfl

/-! ## Larger pools and longer codes -/

/-- The constant arm gives the same constant in a pool that extends the one it returned: the
operands read the same there, and the result is inline or interned at the same handle. -/
theorem foldConst_of_le {op : Opcode} {ty : Ty} {left right c : Ins}
    (h : foldConst debug p op ty left right = .ok (p', c)) (hq : p'.Le q) :
    ∃ q', foldConst debug q op ty left right = .ok (q', c) := by
  -- the checks of a debug build do not read the pool
  have h₁ : ¬(debug && (left.ty != ty || right.ty != ty)) = true := fun h₁ => by
    simp [foldConst, h₁] at h
  rcases foldConst_ok h with ⟨hf, l, r, v, hl, hr, hv, hnk⟩ | ⟨hf, l, r, v, hl, hr, hv, hnk⟩
  · have hp' : (newkfp p ty v).1.Le q := by rw [hnk]; exact hq
    have hpq : p.Le q := (le_newkfp p ty v).trans hp'
    refine ⟨(newkfp q ty v).1, ?_⟩
    have hc : (newkfp q ty v).2 = c := by rw [newkfp_of_le hp', hnk]
    simp only [foldConst, h₁, hf, Bool.false_eq_true, if_false, if_true, kfpvalue_of_le hpq hl,
      kfpvalue_of_le hpq hr, bind, Except.bind, hv, pure, Except.pure, ← hc]
  · have hp' : (newkint p ty v).1.Le q := by rw [hnk]; exact hq
    have hpq : p.Le q := (le_newkint p ty v).trans hp'
    refine ⟨(newkint q ty v).1, ?_⟩
    have hc : (newkint q ty v).2 = c := by rw [newkint_of_le hp', hnk]
    have h₂ : ¬(debug && !ty.isInt) = true := fun h₂ => by
      simp [foldConst, h₁, hf, h₂] at h
    simp only [foldConst, h₁, h₂, hf, Bool.false_eq_true, if_false, kintvalue_of_le hpq hl,
      kintvalue_of_le hpq hr, bind, Except.bind, hv, pure, Except.pure, ← hc]

/-- `fold` returns the same status in a pool that extends the one it returned. -/
theorem fold_of_le (h : fold T debug p code r = .ok (p', st)) (hq : p'.Le q) :
    ∃ q', fold T debug q code r = .ok (q', st) := by
  by_cases hfc : foldsConst T code r
  · unfold fold at h ⊢
    rw [if_pos hfc] at h ⊢
    split at h
    · rename_i left right hl hr
      obtain ⟨i, hi, rfl⟩ := map_done_eq_ok h
      obtain ⟨q', hq'⟩ := foldConst_of_le hi hq
      exact ⟨q', by rw [hq']; rfl⟩
    · cases h
  · exact ⟨q, by rw [fold_pool (by simpa using hfc) (p := p), h]; rfl⟩

/-- The loop around `fold` on an instruction whose inputs are ids of the code stops at the
same status in a pool that extends the one it returned and in a code that extends it. -/
theorem foldStop_of_le {fuel : Nat} (hin : ∀ x ∈ r.inputs T, x < code.length)
    (h : foldStop T debug fuel p code r = .ok (p', st)) (hq : p'.Le q) (hcode : code <+: code') :
    ∃ q', foldStop T debug fuel q code' r = .ok (q', st) := by
  have hget : ∀ {x}, x < code.length → code'[x]? = code[x]? := fun hx => by
    obtain ⟨t, rfl⟩ := hcode
    exact List.getElem?_append_left hx
  induction fuel generalizing p r with
  | zero => cases h
  | succ fuel ih =>
    rw [foldStop] at h ⊢
    rw [fold_congr_inputs fun x hx => hget (hin x hx)]
    rcases hf : fold T debug p code r with e | ⟨p₁, i | i | m⟩ <;> rw [hf] at h
    · cases h
    · cases h
      obtain ⟨q', hq'⟩ := fold_of_le hf hq
      exact ⟨q', by rw [hq']⟩
    · -- a swap of `ADD` or `MUL`, whose inputs are the two inputs swapped
      obtain ⟨rfl, rfl, -, hs⟩ := fold_again hf
      obtain ⟨q', hq'⟩ := fold_of_le hf ((le_foldStop h).trans hq)
      obtain ⟨rfl, -⟩ := fold_again hq'
      rw [hq']
      have hc : r.opcode.isComm := by simp_all [swapsInputs]
      rw [Ins.inputs_of_isComm hc] at hin
      exact ih (fun x hx => hin x (by rw [Ins.inputs_swapInputs hc] at hx; simp at hx ⊢; tauto)) h
    · cases h
      obtain ⟨q', hq'⟩ := fold_of_le hf hq
      exact ⟨q', by rw [hq']⟩

/-! ## The run invariant -/

/-- Folding `r` again in any pool and code that extend the buffers stops at the id `m`
(`New`) or at the instruction at `m` (`Done`). -/
def Fcx.RefoldsAt (T : OpTable) (debug : Bool) (s : Fcx) (r : Ins) (m : Nat) : Prop :=
  ∃ st, (st = .New m ∨ ∃ i, st = .Done i ∧ s.code[m]? = some i) ∧
    ∀ q code', s.intern.Le q → s.code <+: code' →
      ∃ fuel q', foldStop T debug fuel q code' r = .ok (q', st)

theorem Fcx.RefoldsAt.mono {s t : Fcx} {m : Nat} (h : s.RefoldsAt T debug r m) (hst : s.Le t) :
    t.RefoldsAt T debug r m := by
  obtain ⟨st, hst', hall⟩ := h
  exact ⟨st, hst'.imp_right fun ⟨i, e, hi⟩ => ⟨i, e, getElem?_of_prefix hst.code hi⟩,
    fun q c' hq hc => hall q c' (hst.intern.trans hq) (hst.code.trans hc)⟩

/-- Every visited node of `f` has its inputs visited, and its renamed instruction refolds
at its recorded id. -/
def Fcx.RefoldsAll (T : OpTable) (debug : Bool) (f : Func) (s : Fcx) : Prop :=
  ∀ {id m : Nat} {ins : Ins}, f.code[id]? = some ins → s.oldNew[id]? = some (some m) →
    (∀ x ∈ ins.inputs T, s.Visited x) ∧
      s.RefoldsAt T debug (ins.mapSlots s.newId (ins.opcode.inputs T)) m

/-- Renaming through the new ids of visited inputs gives the same instruction later. -/
theorem Ins.mapSlots_newId_of_le {s t : Fcx} {ins : Ins} (hvis : ∀ x ∈ ins.inputs T, s.Visited x)
    (hle : s.Le t) :
    ins.mapSlots t.newId (ins.opcode.inputs T) = ins.mapSlots s.newId (ins.opcode.inputs T) := by
  refine Ins.ext_get (by simp) (by simp) fun sl => ?_
  rw [Ins.get_mapSlots _ ins.opcode.nodup_inputs, Ins.get_mapSlots _ ins.opcode.nodup_inputs]
  split
  · obtain ⟨m, hm⟩ := hvis _ (Ins.mem_inputs ‹_›)
    rw [Fcx.newId_of_getElem? hm, Fcx.newId_of_getElem? (hle.oldNew hm)]
  · rfl

variable {f : Func} {s t : Fcx}

/-- A node step keeps the invariant: the node's renamed instruction was just folded at the
buffers, and what the other nodes refold at stays as the buffers grow. -/
theorem Fcx.RefoldsAll.nodeStep {id n : Nat} (hw : s.Wf T f) (h : s.RefoldsAll T debug f)
    (hs : NodeStep T debug f s id t n) : t.RefoldsAll T debug f := by
  have hle := hs.le
  intro id' m ins hins hm
  rw [nodeStep_oldNew hs] at hm
  by_cases hid : id' = id
  swap
  · -- a node visited before the step
    rw [if_neg hid] at hm
    obtain ⟨hvis, hr⟩ := h hins hm
    exact ⟨fun x hx => hle.visited (hvis x hx), Ins.mapSlots_newId_of_le hvis hle ▸ hr.mono hle⟩
  -- the node of the step: its renamed instruction was just folded at the buffers
  subst hid
  rw [if_pos rfl] at hm
  cases hm
  obtain ⟨ins₀, fuel, u, hins₀, -, hin, hfl, rfl⟩ := hs
  rw [Option.some.inj (hins₀.symm.trans hins)] at hin hfl
  refine ⟨fun x hx => hle.visited (hin x hx), ?_⟩
  rw [Ins.mapSlots_newId_of_le hin hle]
  -- the inputs of the renamed instruction are ids of the new code
  have hlt : ∀ x ∈ (ins.mapSlots s.newId (ins.opcode.inputs T)).inputs T, x < s.code.length := by
    rw [Ins.inputs_mapSlots]
    intro y hy
    obtain ⟨x, hx, rfl⟩ := List.mem_map.mp hy
    obtain ⟨m, hm⟩ := hin x hx
    rw [Fcx.newId_of_getElem? hm]; exact hw.lt hm
  obtain ⟨st, hst, hn⟩ := foldLoop_ok hfl
  exact ⟨st, hn, fun q c' hq hc' => ⟨fuel, foldStop_of_le hlt hst hq (hle.code.trans hc')⟩⟩

/-- The buffers `Fold::run` leaves keep the invariant. -/
theorem Fold.run_refoldsAll (ha : f.Acyclic T) {g : Func} (h : Fold.run T debug p f = .ok (s, g)) :
    s.RefoldsAll T debug f :=
  (bfs_nodeStep_induct ha (fun s => s.Wf T f ∧ s.RefoldsAll T debug f)
    (fun h => ⟨h.1.of_eq rfl rfl rfl, h.2⟩)
    (fun h hs => ⟨h.1.nodeStep hs, Fcx.RefoldsAll.nodeStep h.1 h.2 hs⟩)
    ⟨Fcx.Wf.init p f, fun _ hm => absurd ⟨_, hm⟩ (Fold.init_oldNew p f _)⟩ (Fold.run_ok h).1).2

/-! ## The code `Fold::run` returns -/

/-- `fixup` is a function of `old_new`: one instruction fixes up to one instruction. -/
theorem Ins.Fixed.det {o : List (Option Nat)} {ins i₁ i₂ : Ins} (h₁ : ins.Fixed T o i₁)
    (h₂ : ins.Fixed T o i₂) : i₁ = i₂ := by
  refine Ins.ext_get (h₁.opcode.trans h₂.opcode.symm) (h₁.ty.trans h₂.ty.symm) fun sl => ?_
  by_cases hc : sl ∈ ins.opcode.controls T
  · exact Option.some.inj (Option.some.inj ((h₁.controls sl hc).symm.trans (h₂.controls sl hc)))
  · rw [h₁.other sl hc, h₂.other sl hc]

/-- At an index of the code of the buffers `Fold::run` leaves, the code it returns holds the
instruction there with its control slots fixed up. -/
theorem Fold.run_getElem?_fixed (ha : f.Acyclic T) {g : Func}
    (h : Fold.run T debug p f = .ok (s, g)) {k : Nat} {i : Ins} (hk : s.code[k]? = some i) :
    ∃ i', g.code[k]? = some i' ∧ i.Fixed T s.oldNew i' := by
  obtain ⟨-, -, hlen, hrel, -⟩ := Fold.run_spec ha h
  obtain ⟨i', hk'⟩ : ∃ i', g.code[k]? = some i' :=
    Option.isSome_iff_exists.mp (by simp [hlen, (List.getElem?_eq_some_iff.mp hk).1])
  obtain ⟨i₀, h₀, hfix⟩ := hrel k i' hk'
  cases hk.symm.trans h₀
  exact ⟨i', hk', hfix⟩

/-- An instruction without control slots in the buffers `Fold::run` leaves is at the same
index of the code it returns: `fixup` leaves it alone. -/
theorem Fold.run_getElem?_of_controls (ha : f.Acyclic T) {g : Func}
    (h : Fold.run T debug p f = .ok (s, g)) {k : Nat} {i : Ins} (hk : s.code[k]? = some i)
    (hc : i.opcode.controls T = []) : g.code[k]? = some i := by
  obtain ⟨i', hk', hfix⟩ := Fold.run_getElem?_fixed ha h hk
  rwa [← hfix.eq_of_controls hc]

/-- Value numbering is complete.  Take two instructions of `f` reachable from the entry
that rename to one instruction: the same opcode, type and other slots, with inputs whose
new ids agree slot by slot.  The code `Fold::run` returns holds one instruction at their
new ids, and the new ids are one when that instruction is `is_cse`, whichever of the two the
run visited first and whatever it folded them to. -/
theorem Fold.run_congruent (ha : f.Acyclic T) {g : Func} (h : Fold.run T debug p f = .ok (s, g))
    {i j : Nat} {insi insj : Ins} (hi : f.Reach T i) (hj : f.Reach T j)
    (hinsi : f.code[i]? = some insi) (hinsj : f.code[j]? = some insj)
    (hren : insi.mapSlots s.newId (insi.opcode.inputs T) =
      insj.mapSlots s.newId (insj.opcode.inputs T)) :
    ∃ mi mj I, s.oldNew[i]? = some (some mi) ∧ s.oldNew[j]? = some (some mj) ∧
      g.code[mi]? = some I ∧ g.code[mj]? = some I ∧ (I.opcode.isCse T → mi = mj) := by
  obtain ⟨hw, hreach, hlen, -, -⟩ := Fold.run_spec ha h
  obtain ⟨mi, hmi⟩ := (hreach i).mpr hi
  obtain ⟨mj, hmj⟩ := (hreach j).mpr hj
  obtain ⟨-, sti, hsti, hfi⟩ := Fold.run_refoldsAll ha h hinsi hmi
  obtain ⟨-, stj, hstj, hfj⟩ := Fold.run_refoldsAll ha h hinsj hmj
  -- refolded at the final buffers, the two stop at one status
  obtain ⟨fi, qi, hqi⟩ := hfi s.intern s.code (Intern.Le.refl _) (List.prefix_refl _)
  obtain ⟨fj, qj, hqj⟩ := hfj s.intern s.code (Intern.Le.refl _) (List.prefix_refl _)
  rw [← hren] at hqj
  obtain rfl : sti = stj := congrArg Prod.snd (foldStop_det hqi hqj)
  rcases hsti with rfl | ⟨I, rfl, hI⟩
  · -- both collapse to one id of the new code
    obtain rfl : mi = mj := by
      rcases hstj with h' | ⟨_, h', _⟩ <;> cases h'; rfl
    obtain ⟨I, hI⟩ : ∃ I, g.code[mi]? = some I := ⟨_, List.getElem?_eq_getElem (hlen ▸ hw.lt hmi)⟩
    exact ⟨mi, mi, I, hmi, hmj, hI, hI, fun _ => rfl⟩
  · -- both stop at one instruction, held at both ids of the buffers and fixed up alike
    obtain ⟨_, he, hJ⟩ := hstj.resolve_left (by simp)
    cases he
    obtain ⟨Ii, hIi, hfi⟩ := Fold.run_getElem?_fixed ha h hI
    obtain ⟨Ij, hIj, hfj⟩ := Fold.run_getElem?_fixed ha h hJ
    cases hfi.det hfj
    exact ⟨mi, mj, Ii, hmi, hmj, hIi, hIj, fun hc => hw.cseUniq hI hJ (hfi.opcode ▸ hc)⟩

/-- The function `v0 = PARAM 0; v1 = PARAM 1; v2 = MOV v0; v3 = ADD v0 v1; v4 = ADD v2 v1;
v5 = SUB v3 v4; RET v5` over `OpTable.sample`: `v3` and `v4` differ, but rename to one
instruction once the move collapses to its operand. -/
def Func.sampleMov : Func :=
  ⟨[⟨.op 3, .I32, 0, 0, 0⟩, ⟨.op 3, .I32, 1, 0, 0⟩, ⟨.MOV, .I32, 0, 0, 0⟩, ⟨.ADD, .I32, 0, 1, 0⟩,
    ⟨.ADD, .I32, 2, 1, 0⟩, ⟨.SUB, .I32, 3, 4, 0⟩, ⟨.op 0, .FX, 5, 0, 0⟩], 6⟩

theorem Fold.run_congruent_sample :
    Func.sampleMov.Acyclic OpTable.sample ∧ ∃ s g,
      Fold.run OpTable.sample false ⟨[]⟩ Func.sampleMov = .ok (s, g) ∧
      ∃ mi mj I, s.oldNew[3]? = some (some mi) ∧ s.oldNew[4]? = some (some mj) ∧
        g.code[mi]? = some I ∧ g.code[mj]? = some I ∧ (I.opcode.isCse OpTable.sample → mi = mj) := by
  have ha : Func.sampleMov.Acyclic OpTable.sample := Func.Topo.acyclic _ (by decide)
  have h5 : Func.sampleMov.Reach OpTable.sample 5 := .edge .entry rfl (by decide)
  exact ⟨ha, _, _, rfl, Fold.run_congruent ha
    (rfl : Fold.run OpTable.sample false ⟨[]⟩ Func.sampleMov = _) (.edge h5 rfl (by decide))
    (.edge h5 rfl (by decide)) rfl rfl (by decide)⟩

end Fhk5
