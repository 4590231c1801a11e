import Fhk5.Fold.Meaning

/-!
# `Fold::run` keeps types

`ir.rs` is not among the sources, but `fold` says what it assumes of types.  Its constant arm
asserts, in a debug build, that both operands of an arithmetic instruction have the
instruction's type.  Its `MOV` arm replaces a `MOV` by its operand, which keeps the types the
users of the `MOV` see only if the operand has the `MOV`'s type.  `Ins.Typed` states both for
one instruction of a code vector, and `Func.WellTyped` for every instruction the entry
reaches.

A node step keeps the invariant `Fcx.Typed`: the new id of every visited old id holds an
instruction of the old one's type, and every instruction of the new code is `Typed` in it.
A collapse gives the new id of an operand, which has the instruction's type; a `Done`
instruction has the type of the instruction it was folded from (`ty_of_fold_done`), and its
operands are new ids of the old operands.  `fixup` rewrites control slots only.  So the
function `Fold::run` returns from a well-typed function is typed in all of its code, and each
reachable id keeps its type at its new id (`Fold.run_typed`).
-/

namespace Fhk5

variable (T : OpTable)

/-- The typing `fold` assumes of an instruction of `code`: every operand of an arithmetic
instruction or of a `MOV` is an instruction of `code` of its type. -/
def Ins.Typed (code : List Ins) (i : Ins) : Prop :=
  i.opcode.isArith ∨ i.opcode = .MOV → ∀ x ∈ i.inputs T, (code[x]?).map Ins.ty = some i.ty

instance (code : List Ins) (i : Ins) : Decidable (i.Typed T code) :=
  inferInstanceAs (Decidable (i.opcode.isArith ∨ i.opcode = .MOV →
    ∀ x ∈ i.inputs T, (code[x]?).map Ins.ty = some i.ty))

/-- Every instruction the entry reaches is `Typed` in the code. -/
def Func.WellTyped (f : Func) : Prop :=
  ∀ x ins, f.Reach T x → f.code[x]? = some ins → ins.Typed T f.code

/-- The invariant of a run over `f`. -/
structure Fcx.Typed (f : Func) (s : Fcx) : Prop where
  /-- The new id of a visited old id holds an instruction of its type. -/
  ty : ∀ {x m : Nat} {ins : Ins}, s.oldNew[x]? = some (some m) → f.code[x]? = some ins →
    (s.code[m]?).map Ins.ty = some ins.ty
  /-- Every instruction of the new code is typed in it. -/
  code : ∀ i ∈ s.code, i.Typed T s.code

variable {T}

theorem Func.wellTyped_of_forall {f : Func} (h : ∀ i ∈ f.code, i.Typed T f.code) :
    f.WellTyped T :=
  fun _ _ _ hins => h _ (List.getElem?_mem hins)

/-- Code that grows at its end keeps the typing of its instructions. -/
theorem Ins.Typed.mono {code code' : List Ins} {i : Ins} (h : i.Typed T code) (hc : code <+: code') :
    i.Typed T code' := fun hk x hx => by
  have := h hk x hx
  cases hx' : code[x]? with
  | none => simp [hx'] at this
  | some j => rwa [ getElem?_of_prefix hc hx', ← hx']

/-- An instruction without operands is typed in any code. -/
theorem Ins.typed_of_isLiteral {code : List Ins} {i : Ins} (h : i.opcode.isLiteral) :
    i.Typed T code := fun _ x hx => by
  simp [Ins.inputs, Opcode.inputs_of_isLiteral (T := T) h] at hx

@[simp] theorem ty_newkint (p : Intern) (ty : Ty) (v : BitVec 64) : (newkint p ty v).2.ty = ty := by
  unfold newkint; split <;> rfl

@[simp] theorem ty_newkfp (p : Intern) (ty : Ty) (v : Float) : (newkfp p ty v).2.ty = ty := by
  unfold newkfp; dsimp only; split <;> rfl

/-- A `Done` instruction has the type of the instruction it was folded from. -/
theorem ty_of_fold_done {debug : Bool} {p p' : Intern} {code : List Ins} {j i : Ins}
    (h : fold T debug p code j = .ok (p', .Done i)) : i.ty = j.ty := by
  rcases fold_done h with ⟨-, l, r, -, -, hc⟩ | ⟨-, -, rfl⟩ | ⟨-, rfl, -⟩
  · rcases foldConst_ok hc with ⟨-, _, _, v, -, -, -, hv⟩ | ⟨-, _, _, v, -, -, -, hv⟩
    · obtain rfl : (newkfp p _ v).2 = i := congrArg Prod.snd hv
      exact ty_newkfp p _ v
    · obtain rfl : (newkint p _ v).2 = i := congrArg Prod.snd hv
      exact ty_newkint p _ v
  · rfl
  · rfl

namespace Fcx.Typed

variable {debug : Bool} {f : Func} {s t : Fcx} {id n : Nat} {i : Ins}

theorem init (p : Intern) (f : Func) : (Fold.init p f).Typed T f :=
  ⟨fun hx => absurd ⟨_, hx⟩ (Fold.init_oldNew p f _), by simp [Fold.init]⟩

theorem withIntern (h : s.Typed T f) (p : Intern) : ({ s with intern := p } : Fcx).Typed T f :=
  ⟨h.ty, h.code⟩

theorem withNext (h : s.Typed T f) (rest : List Nat) : ({ s with next := rest } : Fcx).Typed T f :=
  ⟨h.ty, h.code⟩

/-- `done` of a typed instruction keeps the invariant and gives an id of its type. -/
theorem done (h : s.Typed T f) (hi : i.Typed T s.code) :
    (s.done T i).1.Typed T f ∧ ((s.done T i).1.code[(s.done T i).2]?).map Ins.ty = some i.ty := by
  have hle := Fcx.le_done T s i
  refine ⟨⟨fun {x m ins} hx hins => ?_, fun j hj => ?_⟩, by rw [Fcx.getElem?_done]; rfl⟩
  · rw [Fcx.oldNew_done] at hx
    have := h.ty hx hins
    cases hm : s.code[m]? with
    | none => simp [hm] at this
    | some j => rwa [ getElem?_of_prefix hle.code hm, ← hm]
  · -- the code is the old code, or the old code and `i`
    have hj' : j ∈ s.code ∨ j = i := by
      rcases done_cases T s i with ⟨-, idx, -, -, hd⟩ | ⟨-, hd⟩ <;> rw [hd] at hj <;> simp_all
    rcases hj' with hj' | rfl
    exacts [(h.code j hj').mono hle.code, hi.mono hle.code]

/-- Recording a new id of the old instruction's type keeps the invariant. -/
theorem record (h : s.Typed T f) (hid : id < s.oldNew.length)
    (hn : ∀ {ins}, f.code[id]? = some ins → (s.code[n]?).map Ins.ty = some ins.ty) :
    (s.record id n).Typed T f := by
  refine ⟨fun {x m ins} hx hins => ?_, h.code⟩
  rw [Fcx.oldNew_record s id n x hid] at hx
  split at hx
  · subst x; cases hx; exact hn hins
  · exact h.ty hx hins

/-- The new id of an operand of a typed arithmetic instruction or `MOV` holds an instruction
of the instruction's type. -/
theorem ty_input (h : s.Typed T f) {ins : Ins} (hti : ins.Typed T f.code)
    (hk : ins.opcode.isArith ∨ ins.opcode = .MOV) {x m : Nat} (hx : x ∈ ins.inputs T)
    (hm : s.oldNew[x]? = some (some m)) : (s.code[m]?).map Ins.ty = some ins.ty := by
  have hty := hti hk x hx
  cases hfx : f.code[x]? with
  | none => simp [hfx] at hty
  | some ix => rw [h.ty hm hfx, ← hty, hfx]; rfl

/-- A node step at a reachable node of a well-typed function keeps the invariant. -/
theorem nodeStep (h : s.Typed T f) (hwt : f.WellTyped T) (hr : f.Reach T id)
    (hs : NodeStep T debug f s id t n) : t.Typed T f := by
  obtain ⟨ins, fuel, u, hins, hid, hin, hfl, rfl⟩ := hs
  have hti := hwt id ins hr hins
  have hlen : id < u.oldNew.length := by
    rw [Fcx.oldNew_foldLoop T hfl]; exact (List.getElem?_eq_some_iff.mp hid).1
  -- the loop folds the renamed instruction, or its swap
  let r := ins.mapSlots s.newId (ins.opcode.inputs T)
  obtain ⟨j, p, hj, hcase⟩ := foldLoop_induct (s := s)
    (fun j => j = r ∨ (j = r.swapInputs ∧ r.opcode.isComm))
    (fun {i j p} hi hf => by
      obtain ⟨-, rfl, -, hsw⟩ := fold_again hf
      have hc : i.opcode.isComm := by simp_all [swapsInputs]
      rcases hi with rfl | ⟨rfl, -⟩
      · exact .inr ⟨rfl, hc⟩
      · exact .inl rfl)
    (.inl rfl) hfl
  obtain ⟨hjop, hjin, -⟩ := Ins.edges_of_renamed_or_swapped hj
  have hjty : j.ty = ins.ty := by rcases hj with rfl | ⟨rfl, -⟩ <;> simp [r]
  -- its operands are new ids of the old operands, which have the old instruction's type
  have hop : ins.opcode.isArith ∨ ins.opcode = .MOV →
      ∀ x ∈ j.inputs T, (s.code[x]?).map Ins.ty = some ins.ty := by
    intro hk x hx
    obtain ⟨y, hy, rfl⟩ := hjin x hx
    obtain ⟨m, hm⟩ := hin y hy
    rw [Fcx.newId_of_getElem? hm]
    exact h.ty_input hti hk hy hm
  rcases hcase with ⟨hf, rfl⟩ | ⟨i, hf, hd⟩
  · -- a collapse to the first operand
    obtain ⟨-, rfl, hk⟩ := fold_new hf
    have hk := isArith_of_collapse hk
    refine (h.withIntern p).record hlen fun hins' => ?_
    cases hins.symm.trans hins'
    exact hop (hjop ▸ hk) _ (Ins.a_mem_inputs (T := T) hk)
  · -- a `Done` instruction of the folded instruction's type
    have hit : i.Typed T s.code := by
      rcases (fold_done_normal hf).2 with ⟨hl, -⟩ | rfl
      · exact Ins.typed_of_isLiteral hl
      · exact fun hk => hjty ▸ hop (hjop ▸ hk)
    obtain ⟨hdt, hdn⟩ := (h.withIntern p).done hit
    obtain rfl := congrArg Prod.fst hd
    obtain rfl := congrArg Prod.snd hd
    refine hdt.record hlen fun hins' => ?_
    cases hins.symm.trans hins'
    rw [hdn, ty_of_fold_done hf, hjty]

section
variable (ha : f.Acyclic T) (hwt : f.WellTyped T)
include ha hwt

theorem visit (h : s.Typed T f) (hr : f.Reach T id) {fuel : Nat}
    (hv : Fhk5.visit T debug f fuel s id = .ok (t, n)) : t.Typed T f :=
  let ⟨_, hrk⟩ := ha
  (visit_induct (fun id ins h x hx => (hrk id ins h).2 x hx) (Fcx.Typed T f) (f.Reach T)
    (fun _ _ hq hins _ hx => .edge hq hins (List.mem_append_left _ hx))
    (fun _ _ _ _ hq hp hs => hp.nodeStep hwt hq hs) hr h hv).1

theorem bfs (h : s.Typed T f) (hc : s.Closed T f none) {fuel k : Nat}
    (hb : Fhk5.bfs T debug f fuel k s = .ok t) : t.Typed T f :=
  (bfs_induct (fun s => s.Closed T f none ∧ s.Typed T f) (fun hp hn hv =>
    have hr := hp.1.queued _ (by simp [hn])
    have ht := (hp.1.pop hn).visit ha hr hv
    ⟨ht.1.settle ht.2, (hp.2.withNext _).visit ha hwt hr hv⟩) ⟨hc, h⟩ hb).1.2

end

end Fcx.Typed

section
variable {debug : Bool} {p : Intern} {f g : Func} {s : Fcx} (ha : f.Acyclic T) (hwt : f.WellTyped T)
include ha hwt

/-- After a run the buffers keep the invariant, and `fixup` keeps the type at every index. -/
theorem Fold.run_typed_buffers (h : Fold.run T debug p f = .ok (s, g)) :
    s.Typed T f ∧ ∀ k : Nat, (g.code[k]?).map Ins.ty = (s.code[k]?).map Ins.ty := by
  obtain ⟨hb, -, -⟩ := Fold.run_ok h
  obtain ⟨-, -, hlen, hrel, -⟩ := Fold.run_spec ha h
  refine ⟨(Fcx.Typed.init p f).bfs ha hwt (Fcx.Closed.init p f) hb, fun k => ?_⟩
  cases hk : g.code[k]? with
  | none => rw [List.getElem?_eq_none_iff.mpr (hlen ▸ List.getElem?_eq_none_iff.mp hk)]
  | some i' =>
    obtain ⟨i, hi, hfix⟩ := hrel k i' hk
    rw [hi]; exact congrArg some hfix.ty

/-- Every instruction of the function `Fold::run` returns from a well-typed one is typed in
its code. -/
theorem Fold.run_code_typed (h : Fold.run T debug p f = .ok (s, g)) :
    ∀ i ∈ g.code, i.Typed T g.code := by
  intro i' hi' hop x hx
  obtain ⟨hs, hty⟩ := Fold.run_typed_buffers ha hwt h
  obtain ⟨k, hk⟩ := List.getElem?_of_mem hi'
  obtain ⟨i, hi, hfix⟩ := (Fold.run_spec ha h).2.2.2.1 k i' hk
  rw [hfix.inputs_eq] at hx
  rw [hfix.opcode] at hop
  rw [hty, hs.code i (List.getElem?_mem hi) hop x hx, hfix.ty]

/-- `Fold::run` keeps types: from a well-typed acyclic function it returns a function whose
every instruction is typed in its code, and the new id of each visited old id holds an
instruction of the old one's type. -/
theorem Fold.run_typed (h : Fold.run T debug p f = .ok (s, g)) :
    (∀ i ∈ g.code, i.Typed T g.code) ∧
      ∀ (x m : Nat) (ins : Ins), s.oldNew[x]? = some (some m) → f.code[x]? = some ins →
        (g.code[m]?).map Ins.ty = some ins.ty :=
  let ⟨hs, hty⟩ := Fold.run_typed_buffers ha hwt h
  ⟨Fold.run_code_typed ha hwt h, fun _ m _ hm hins => (hty m).trans (hs.ty hm hins)⟩

end

theorem Fold.run_typed_sample :
    Func.sampleCse.Acyclic OpTable.sample ∧ Func.sampleCse.WellTyped OpTable.sample ∧
      ∃ s g, Fold.run OpTable.sample false ⟨[]⟩ Func.sampleCse = .ok (s, g) ∧
        (∀ i ∈ g.code, i.Typed OpTable.sample g.code) ∧
        ∀ (x m : Nat) (ins : Ins), s.oldNew[x]? = some (some m) → Func.sampleCse.code[x]? = some ins →
          (g.code[m]?).map Ins.ty = some ins.ty := by
  have ha : Func.sampleCse.Acyclic OpTable.sample := Func.Topo.acyclic _ (by decide)
  have hwt : Func.sampleCse.WellTyped OpTable.sample := Func.wellTyped_of_forall (by decide)
  exact ⟨ha, hwt, _, _, rfl,
    Fold.run_typed ha hwt (rfl : Fold.run OpTable.sample false ⟨[]⟩ Func.sampleCse = _)⟩

end Fhk5
