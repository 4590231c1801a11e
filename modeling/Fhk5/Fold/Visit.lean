import Fhk5.Fold.Rules

/-!
# `visit`: the post-order rewrite of one instruction

`visit` returns the new id of an old instruction.  An id already in `old_new` returns its
entry.  Otherwise the inputs are visited left to right and replaced by their new ids,
`fold` runs until it stops asking for another pass, and its result is recorded:

* `New id` is an id of the new code already;
* `Done ins` first enqueues the control successors of a control instruction, then reuses
  an equal instruction of `cse_map` if `ins` is `is_cse`, and pushes `ins` otherwise.

`Fcx` is the state the three functions thread: the pool and the four buffers of `Fold`.
The loops of the source are unbounded; here each takes fuel, and running out of it is
`Halt.fuel`.

*Frames.*  `Fcx.Le` says one state extends another: the pool, the new code, the queue and
`cse_map` grow at their ends, and no entry of `old_new` is changed.  Every step keeps it.

*Induction.*  On an acyclic function, with a numbering `rank` decreasing along operand
edges, `visit_induct` is the one induction over `visit`: a property of states that every
`NodeStep` keeps is kept by `visit`.  A `NodeStep` is the work `visit` does at one node
once its inputs are visited: the node is not in `old_new` yet, its inputs are, and the
renamed instruction is folded and recorded.  The node is still unvisited at that point
because the visits of its inputs only record ids of smaller rank.
-/

namespace Fhk5

/-- The part of `Fcx` the fold reads and writes: the pool and the buffers of `Fold`. -/
structure Fcx where
  /-- The constant pool. -/
  intern : Intern
  /-- `old_new`: old id to new id, `none` before the old id is visited. -/
  oldNew : List (Option Nat)
  /-- `next`: the queue of control successors to visit, front first. -/
  next : List Nat
  /-- `cse_map`: the ids of `is_cse` instructions of the new code. -/
  cseMap : List Nat
  /-- `code`: the new code. -/
  code : List Ins
deriving Repr

variable (T : OpTable)

namespace Fcx

/-- The new id recorded for an old one; `0` where there is none, which is never read. -/
def newId (s : Fcx) (x : Nat) : Nat := (s.oldNew[x]?.join).getD 0

/-- `old_new[id] = Some(new)`. -/
def record (s : Fcx) (id new : Nat) : Fcx := { s with oldNew := s.oldNew.set id (some new) }

/-- `next.extend(ins.controls())`, for a control instruction. -/
def enqueue (s : Fcx) (ins : Ins) : Fcx :=
  if ins.opcode.isControl T then { s with next := s.next ++ ins.controls T } else s

/-- `code.push(ins)`, with the new id entered in `cse_map` for an `is_cse` instruction. -/
def push (s : Fcx) (ins : Ins) : Fcx :=
  { s with code := s.code ++ [ins],
           cseMap := if ins.opcode.isCse T then s.cseMap ++ [s.code.length] else s.cseMap }

/-- The `Done` arm of the loop in `visit`. -/
def done (s : Fcx) (ins : Ins) : Fcx × Nat :=
  let s := s.enqueue T ins
  if ins.opcode.isCse T then
    match s.cseMap.find? (fun idx => s.code[idx]? == some ins) with
    | some idx => (s, idx)
    | none => (s.push T ins, s.code.length)
  else (s.push T ins, s.code.length)

/-- The loop around `fold` in `visit`. -/
def foldLoop (debug : Bool) : Nat → Fcx → Ins → Except Halt (Fcx × Nat)
  | 0, _, _ => .error .fuel
  | n + 1, s, ins =>
    match fold T debug s.intern s.code ins with
    | .error e => .error e
    | .ok (p, .Again ins) => foldLoop debug n { s with intern := p } ins
    | .ok (p, .New id) => .ok ({ s with intern := p }, id)
    | .ok (p, .Done ins) => .ok (done T { s with intern := p } ins)

end Fcx

/-- The input loop of `visit`: each input slot, left to right, gets the id `v` returns. -/
def visitInputs (v : Fcx → Nat → Except Halt (Fcx × Nat)) :
    List Slot → Fcx → Ins → Except Halt (Fcx × Ins)
  | [], s, ins => .ok (s, ins)
  | slot :: slots, s, ins =>
    match v s (ins.get slot) with
    | .error e => .error e
    | .ok (s, x) => visitInputs v slots s (ins.set slot x)

/-- `visit`. -/
def visit (debug : Bool) (func : Func) : Nat → Fcx → Nat → Except Halt (Fcx × Nat)
  | 0, _, _ => .error .fuel
  | n + 1, s, id =>
    match s.oldNew[id]? with
    | none => .error .panic
    | some (some new) => .ok (s, new)
    | some none =>
      match func.code[id]? with
      | none => .error .panic
      | some ins =>
        match visitInputs (visit debug func n) (ins.opcode.inputs T) s ins with
        | .error e => .error e
        | .ok (s, ins) =>
          match s.foldLoop T debug (n + 1) ins with
          | .error e => .error e
          | .ok (s, new) => .ok (s.record id new, new)

/-! ## Frames -/

namespace Fcx

/-- `t` extends `s`. -/
structure Le (s t : Fcx) : Prop where
  intern : s.intern.Le t.intern
  code : s.code <+: t.code
  next : s.next <+: t.next
  cseMap : s.cseMap <+: t.cseMap
  length : t.oldNew.length = s.oldNew.length
  oldNew : ∀ {id n : Nat}, s.oldNew[id]? = some (some n) → t.oldNew[id]? = some (some n)

theorem Le.refl (s : Fcx) : s.Le s :=
  ⟨Intern.Le.refl _, List.prefix_refl _, List.prefix_refl _, List.prefix_refl _, rfl, id⟩

theorem Le.trans {s t u : Fcx} (h₁ : s.Le t) (h₂ : t.Le u) : s.Le u :=
  ⟨h₁.intern.trans h₂.intern, h₁.code.trans h₂.code, h₁.next.trans h₂.next,
    h₁.cseMap.trans h₂.cseMap, h₂.length.trans h₁.length, fun h => h₂.oldNew (h₁.oldNew h)⟩

@[simp] theorem record_code (s : Fcx) (id n : Nat) : (s.record id n).code = s.code := rfl
@[simp] theorem record_next (s : Fcx) (id n : Nat) : (s.record id n).next = s.next := rfl
@[simp] theorem record_cseMap (s : Fcx) (id n : Nat) : (s.record id n).cseMap = s.cseMap := rfl
@[simp] theorem record_intern (s : Fcx) (id n : Nat) : (s.record id n).intern = s.intern := rfl

theorem oldNew_record (s : Fcx) (id n y : Nat) (hid : id < s.oldNew.length) :
    (s.record id n).oldNew[y]? = if y = id then some (some n) else s.oldNew[y]? := by
  by_cases hy : y = id
  · subst hy; simp [record, hid]
  · simp [record, List.getElem?_set, Ne.symm hy, hy]

theorem le_record {s : Fcx} {id : Nat} (hid : s.oldNew[id]? = some none) (n : Nat) :
    s.Le (s.record id n) := by
  have hlt : id < s.oldNew.length := (List.getElem?_eq_some_iff.mp hid).1
  refine ⟨Intern.Le.refl _, List.prefix_refl _, List.prefix_refl _, List.prefix_refl _,
    by simp [record], fun {y m} h => ?_⟩
  rw [oldNew_record s id n y hlt, if_neg]
  · exact h
  · rintro rfl; simp_all

@[simp] theorem enqueue_code (s : Fcx) (ins : Ins) : (s.enqueue T ins).code = s.code := by
  unfold enqueue; split <;> rfl
@[simp] theorem enqueue_cseMap (s : Fcx) (ins : Ins) : (s.enqueue T ins).cseMap = s.cseMap := by
  unfold enqueue; split <;> rfl
@[simp] theorem enqueue_oldNew (s : Fcx) (ins : Ins) : (s.enqueue T ins).oldNew = s.oldNew := by
  unfold enqueue; split <;> rfl
@[simp] theorem enqueue_intern (s : Fcx) (ins : Ins) : (s.enqueue T ins).intern = s.intern := by
  unfold enqueue; split <;> rfl
@[simp] theorem push_code (s : Fcx) (ins : Ins) : (s.push T ins).code = s.code ++ [ins] := rfl
@[simp] theorem push_next (s : Fcx) (ins : Ins) : (s.push T ins).next = s.next := rfl
@[simp] theorem push_oldNew (s : Fcx) (ins : Ins) : (s.push T ins).oldNew = s.oldNew := rfl
@[simp] theorem push_intern (s : Fcx) (ins : Ins) : (s.push T ins).intern = s.intern := rfl

/-- What `done` does: enqueue the successors of a control instruction, then reuse an equal
`is_cse` instruction of `cse_map`, or push. -/
theorem done_cases (s : Fcx) (ins : Ins) :
    (ins.opcode.isCse T ∧ ∃ idx ∈ s.cseMap, s.code[idx]? = some ins ∧
        s.done T ins = (s.enqueue T ins, idx)) ∨
      ((ins.opcode.isCse T → ∀ idx ∈ s.cseMap, s.code[idx]? ≠ some ins) ∧
        s.done T ins = ((s.enqueue T ins).push T ins, s.code.length)) := by
  unfold done
  by_cases hc : ins.opcode.isCse T
  · simp only [hc, if_true]
    cases hf : (s.enqueue T ins).cseMap.find? (fun idx => (s.enqueue T ins).code[idx]? == some ins) with
    | some idx =>
      have := List.find?_some hf
      simp only [enqueue_cseMap, enqueue_code] at hf this
      exact .inl ⟨trivial, idx, List.mem_of_find?_eq_some hf, by simpa using this, rfl⟩
    | none =>
      simp only [enqueue_cseMap, enqueue_code] at hf
      refine .inr ⟨fun _ idx hidx h => ?_, by simp⟩
      have := List.find?_eq_none.mp hf idx hidx
      simp_all
  · simp [hc]

theorem le_enqueue (s : Fcx) (ins : Ins) : s.Le (s.enqueue T ins) := by
  refine ⟨by simp [Intern.Le.refl], by simp [List.prefix_refl], ?_, by simp [List.prefix_refl],
    by simp, by simp⟩
  unfold enqueue; split
  · exact List.prefix_append _ _
  · exact List.prefix_refl _

theorem le_push (s : Fcx) (ins : Ins) : s.Le (s.push T ins) := by
  refine ⟨Intern.Le.refl _, List.prefix_append _ _, List.prefix_refl _, ?_, rfl, id⟩
  simp only [push]; split
  · exact List.prefix_append _ _
  · exact List.prefix_refl _

theorem le_done (s : Fcx) (ins : Ins) : s.Le (s.done T ins).1 := by
  rcases done_cases T s ins with ⟨-, idx, -, -, h⟩ | ⟨-, h⟩ <;> rw [h]
  · exact le_enqueue T s ins
  · exact (le_enqueue T s ins).trans (le_push T _ ins)

theorem le_withIntern (s : Fcx) {p : Intern} (hp : s.intern.Le p) : s.Le { s with intern := p } :=
  ⟨hp, List.prefix_refl _, List.prefix_refl _, List.prefix_refl _, rfl, id⟩

theorem le_foldLoop {debug : Bool} {fuel : Nat} {s t : Fcx} {ins : Ins} {n : Nat}
    (h : s.foldLoop T debug fuel ins = .ok (t, n)) : s.Le t := by
  induction fuel generalizing s ins with
  | zero => cases h
  | succ fuel ih =>
    unfold foldLoop at h
    split at h
    · cases h
    · rename_i p i hf; exact (le_withIntern _ (le_fold hf)).trans (ih h)
    · rename_i p i hf; cases Except.ok.inj h; exact le_withIntern _ (le_fold hf)
    · rename_i p i hf
      have ht : (done T _ i).1 = t := congrArg Prod.fst (Except.ok.inj h)
      rw [← ht]
      exact (le_withIntern _ (le_fold hf)).trans (le_done T _ _)

@[simp] theorem oldNew_done (s : Fcx) (ins : Ins) : (s.done T ins).1.oldNew = s.oldNew := by
  rcases done_cases T s ins with ⟨-, idx, -, -, h⟩ | ⟨-, h⟩ <;> simp [h]

theorem oldNew_foldLoop {debug : Bool} {fuel : Nat} {s t : Fcx} {ins : Ins} {n : Nat}
    (h : s.foldLoop T debug fuel ins = .ok (t, n)) : t.oldNew = s.oldNew := by
  induction fuel generalizing s ins with
  | zero => cases h
  | succ fuel ih =>
    unfold foldLoop at h
    split at h
    · cases h
    · have := ih h; exact this
    · cases Except.ok.inj h; rfl
    · have ht : (done T _ _).1 = t := congrArg Prod.fst (Except.ok.inj h)
      rw [← ht, oldNew_done]

theorem newId_of_getElem? {s : Fcx} {x m : Nat} (h : s.oldNew[x]? = some (some m)) :
    s.newId x = m := by
  simp [newId, h]

/-- Every id that `t` records and `s` does not has rank at most `r`. -/
def SetsBelow (rank : Nat → Nat) (s t : Fcx) (r : Nat) : Prop :=
  ∀ y, s.oldNew[y]? = some none → t.oldNew[y]? ≠ some none → rank y ≤ r

theorem SetsBelow.refl (rank : Nat → Nat) (s : Fcx) (r : Nat) : SetsBelow rank s s r :=
  fun _ h h' => absurd h h'

theorem SetsBelow.trans {rank : Nat → Nat} {s t u : Fcx} {r r' : Nat}
    (h₁ : SetsBelow rank s t r) (h₂ : SetsBelow rank t u r') : SetsBelow rank s u (max r r') :=
  fun y hs hu => by
    by_cases ht : t.oldNew[y]? = some none
    · have := h₂ y ht hu; omega
    · have := h₁ y hs ht; omega

end Fcx

/-! ## The induction over `visit` -/

variable {T} {debug : Bool} {f : Func}

/-- The work `visit` does at a node whose inputs are visited: fold the renamed
instruction and record the result. -/
def NodeStep (T : OpTable) (debug : Bool) (f : Func) (s : Fcx) (id : Nat) (t : Fcx) (n : Nat) :
    Prop :=
  ∃ ins fuel u, f.code[id]? = some ins ∧ s.oldNew[id]? = some none ∧
    (∀ x ∈ ins.inputs T, ∃ m, s.oldNew[x]? = some (some m)) ∧
    s.foldLoop T debug fuel (ins.mapSlots s.newId (ins.opcode.inputs T)) = .ok (u, n) ∧
    t = u.record id n

/-- The input loop keeps what each call of `v` keeps, records every input, and rewrites
the input slots with the recorded ids. -/
theorem visitInputs_spec {rank : Nat → Nat} {P : Fcx → Prop} {X : Nat → Prop}
    {v : Fcx → Nat → Except Halt (Fcx × Nat)}
    (hv : ∀ {s x t m}, X x → P s → v s x = .ok (t, m) →
      P t ∧ s.Le t ∧ t.oldNew[x]? = some (some m) ∧ Fcx.SetsBelow rank s t (rank x)) :
    ∀ {slots : List Slot} {s t : Fcx} {ins ins' : Ins}, slots.Nodup → (∀ sl ∈ slots, X (ins.get sl)) →
      P s → visitInputs v slots s ins = .ok (t, ins') →
      P t ∧ s.Le t ∧ (∀ sl ∈ slots, ∃ m, t.oldNew[ins.get sl]? = some (some m)) ∧
        ins' = ins.mapSlots t.newId slots ∧
        ∀ y, s.oldNew[y]? = some none → t.oldNew[y]? ≠ some none →
          ∃ sl ∈ slots, rank y ≤ rank (ins.get sl)
  | [], s, t, ins, ins', _, _, hp, h => by
    cases h
    exact ⟨hp, Fcx.Le.refl _, by simp, rfl, fun y h h' => absurd h h'⟩
  | sl :: slots, s, t, ins, ins', hnd, hX, hp, h => by
    obtain ⟨hsl, hnd⟩ := List.nodup_cons.mp hnd
    simp only [visitInputs] at h
    split at h
    · cases h
    rename_i s₁ x hvx
    obtain ⟨hp₁, hle₁, hx₁, hb₁⟩ := hv (hX sl (List.mem_cons_self _ _)) hp hvx
    have hget : ∀ sl' ∈ slots, (ins.set sl x).get sl' = ins.get sl' := fun sl' h' =>
      Ins.get_set_of_ne _ _ (fun e => hsl (e ▸ h'))
    obtain ⟨hp₂, hle₂, hrec, rfl, hb₂⟩ := visitInputs_spec hv hnd
      (fun sl' h' => hget sl' h' ▸ hX sl' (List.mem_cons_of_mem _ h')) hp₁ h
    refine ⟨hp₂, hle₁.trans hle₂, ?_, ?_, ?_⟩
    · intro sl' h'
      rcases List.mem_cons.mp h' with rfl | h'
      · exact ⟨x, hle₂.oldNew hx₁⟩
      · simpa [hget sl' h'] using hrec sl' h'
    · rw [Ins.mapSlots, Fcx.newId_of_getElem? (hle₂.oldNew hx₁)]
    · intro y hy hy'
      by_cases h₁ : s₁.oldNew[y]? = some none
      · obtain ⟨sl', h', hr⟩ := hb₂ y h₁ hy'
        exact ⟨sl', List.mem_cons_of_mem _ h', hget sl' h' ▸ hr⟩
      · exact ⟨sl, List.mem_cons_self _ _, hb₁ y hy h₁⟩

/-- The induction over the loop around `fold`: a property of the instruction that `Again`
keeps holds of the instruction the loop finally folds to `New` or `Done`.  The pool and
the code the final `fold` reads are those the loop started with, since `Again` changes
neither. -/
theorem foldLoop_induct (R : Ins → Prop) {s : Fcx}
    (hR : ∀ {ins j p}, R ins → fold T debug s.intern s.code ins = .ok (p, .Again j) → R j) :
    ∀ {fuel ins u n}, R ins → s.foldLoop T debug fuel ins = .ok (u, n) →
      ∃ j p, R j ∧ ((fold T debug s.intern s.code j = .ok (p, .New n) ∧ u = { s with intern := p }) ∨
        ∃ i, fold T debug s.intern s.code j = .ok (p, .Done i) ∧
          (u, n) = Fcx.done T { s with intern := p } i)
  | 0, _, _, _, _, h => by cases h
  | fuel + 1, ins, u, n, hr, h => by
    unfold Fcx.foldLoop at h
    split at h
    · cases h
    · rename_i p j hf
      obtain ⟨rfl, -⟩ := fold_again hf
      exact foldLoop_induct R hR (hR hr hf) h
    · rename_i p m hf
      cases Except.ok.inj h
      exact ⟨ins, p, hr, .inl ⟨hf, rfl⟩⟩
    · rename_i p i hf
      exact ⟨ins, p, hr, .inr ⟨i, hf, (Except.ok.inj h).symm⟩⟩

theorem Ins.mem_inputs {ins : Ins} {sl : Slot} (h : sl ∈ ins.opcode.inputs T) :
    ins.get sl ∈ ins.inputs T :=
  List.mem_map_of_mem _ h

theorem Opcode.nodup_inputs (op : Opcode) : (op.inputs T).Nodup :=
  (op.nodup_inputs_append_controls T).sublist (List.sublist_append_left _ _)

/-- The induction over `visit`.  On an acyclic function, a property of states that every
`NodeStep` at a node of `Q` keeps, for `Q` closed under inputs, is kept by `visit` from a
node of `Q`.  `visit` also extends the state, records the node, and records no id of
larger rank. -/
theorem visit_induct {rank : Nat → Nat}
    (hrank : ∀ id ins, f.code[id]? = some ins → ∀ x ∈ ins.inputs T, rank x < rank id)
    (P : Fcx → Prop) (Q : Nat → Prop)
    (hQ : ∀ id ins, Q id → f.code[id]? = some ins → ∀ x ∈ ins.inputs T, Q x)
    (hstep : ∀ s id t n, Q id → P s → NodeStep T debug f s id t n → P t) :
    ∀ {fuel s id t n}, Q id → P s → visit T debug f fuel s id = .ok (t, n) →
      P t ∧ s.Le t ∧ t.oldNew[id]? = some (some n) ∧ Fcx.SetsBelow rank s t (rank id)
  | 0, _, _, _, _, _, _, h => by cases h
  | fuel + 1, s, id, t, n, hq, hp, h => by
    unfold visit at h
    split at h
    · cases h
    · rename_i new hnew
      cases Except.ok.inj h
      exact ⟨hp, Fcx.Le.refl _, hnew, Fcx.SetsBelow.refl _ _ _⟩
    rename_i hid
    split at h
    · cases h
    rename_i ins hins
    split at h
    · cases h
    rename_i s₁ ins₁ hin
    split at h
    · cases h
    rename_i u new hfl
    cases Except.ok.inj h
    have hX : ∀ sl ∈ ins.opcode.inputs T, Q (ins.get sl) ∧ rank (ins.get sl) < rank id :=
      fun sl h => ⟨hQ id ins hq hins _ (Ins.mem_inputs h), hrank id ins hins _ (Ins.mem_inputs h)⟩
    obtain ⟨hp₁, hle₁, hrec, rfl, hb⟩ := visitInputs_spec (P := P)
      (fun {_ x _ _} (hx : Q x ∧ rank x < rank id) hp h => visit_induct hrank P Q hQ hstep hx.1 hp h)
      (ins.opcode.nodup_inputs) hX hp hin
    have hid₁ : s₁.oldNew[id]? = some none := by
      by_contra hne
      obtain ⟨sl, hsl, hr⟩ := hb id hid hne
      exact absurd (hX sl hsl).2 (by omega)
    have hu : u.oldNew[id]? = some none := (Fcx.oldNew_foldLoop T hfl).symm ▸ hid₁
    have hlen : id < u.oldNew.length := (List.getElem?_eq_some_iff.mp hu).1
    refine ⟨hstep s₁ id _ n hq hp₁ ⟨ins, fuel + 1, u, hins, hid₁, ?_, hfl, rfl⟩,
      hle₁.trans ((Fcx.le_foldLoop T hfl).trans (Fcx.le_record hu n)), by
        simp [Fcx.oldNew_record u id n id hlen], fun y hy hy' => ?_⟩
    · intro x hx
      obtain ⟨sl, hsl, rfl⟩ := List.mem_map.mp hx
      exact hrec sl hsl
    · rw [Fcx.oldNew_record u id n y hlen] at hy'
      split at hy'
      · subst y; exact le_refl _
      · rw [Fcx.oldNew_foldLoop T hfl] at hy'
        obtain ⟨sl, hsl, hr⟩ := hb y hy hy'
        exact le_of_lt (lt_of_le_of_lt hr (hX sl hsl).2)

end Fhk5
