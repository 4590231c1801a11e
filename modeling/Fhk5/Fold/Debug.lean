import Fhk5.Fold.Typed

/-!
# A debug build of `Fold::run` panics exactly where a constant fold overflows

A debug build adds checks to `fold` and changes nothing else (`fold_of_debug`).  Its constant
arm asserts that both operands have the instruction's type and that a type that is not a
float type is an integer type, and `foldintarith` checks `ADD`, `SUB` and `MUL` for overflow.
Its `MOV` arm asserts that the operand is no `MOV`.

The `MOV` assertion holds on every run: the new code is normal, so it holds no `MOV`
(`Fcx.NormalCode`).  The type assertions hold on a well-typed function whose arithmetic is at
integer or float types: an operand of a renamed instruction is the new id of an old operand,
whose instruction keeps its type (`Fcx.Typed`).  What is left is the overflow check.
`Fcx.OverflowsAt` reads it off the buffers a release run leaves: the instruction at an old id
is an arithmetic instruction at a type that is not a float type, its operands have constants
at their new ids, and the debug `foldintarith` panics on their values.

*Release to debug.*  When no reachable instruction overflows, a debug run follows the release
run step for step (`visit_debug_of_release`, `bfs_debug_of_release`).  Every state the
release run passes through is `Below` the buffers it leaves, so the values read at a step are
the values read at the end.

*Debug to release.*  A debug run that returns folded every node it visited under the checks,
so no node it visited overflows in the buffers it leaves (`Fcx.Checked`).

So a debug build of `Fold::run` returns what the release build returns exactly when no
reachable instruction overflows, and panics otherwise (`Fold.run_debug`).
-/

namespace Fhk5

variable (T : OpTable)

/-- Every arithmetic instruction the entry reaches is at an integer or a float type, as the
constant arm of a debug `fold` asserts. -/
def Func.ArithTyped (f : Func) : Prop :=
  ∀ x ins, f.Reach T x → f.code[x]? = some ins → ins.opcode.isArith →
    ins.ty.isInt ∨ ins.ty.isFloat

/-- In the buffers `s` a run leaves, the instruction at the old id `x` is arithmetic at a type
that is not a float type, its operands have constants at their new ids, and `foldintarith` of
a debug build panics on their values. -/
def Fcx.OverflowsAt (f : Func) (s : Fcx) (x : Nat) : Prop :=
  ∃ ins a b left right l r, f.code[x]? = some ins ∧ ins.opcode.isArith ∧ ins.ty.isFloat = false ∧
    s.oldNew[ins.a]? = some (some a) ∧ s.oldNew[ins.b]? = some (some b) ∧
    s.code[a]? = some left ∧ s.code[b]? = some right ∧
    left.opcode.isConst T ∧ right.opcode.isConst T ∧
    kintvalue s.intern left = .ok l ∧ kintvalue s.intern right = .ok r ∧
    foldintarith true ins.opcode l r = .error .panic

/-- The checks the constant arm of a debug build adds, on the operands `left` and `right` of an
instruction of opcode `op` and type `ty`: the operands' types, the type, and the overflow of
`foldintarith`. -/
def DebugChecks (p : Intern) (op : Opcode) (ty : Ty) (left right : Ins) : Prop :=
  left.ty = ty ∧ right.ty = ty ∧ (ty.isInt ∨ ty.isFloat) ∧
    ∀ l r, ty.isFloat = false → kintvalue p left = .ok l → kintvalue p right = .ok r →
      foldintarith true op l r ≠ .error .panic

/-- `S` keeps what `s` recorded: its new ids, its code and its pool. -/
structure Fcx.Below (s S : Fcx) : Prop where
  intern : s.intern.Le S.intern
  code : s.code <+: S.code
  oldNew : ∀ {x m : Nat}, s.oldNew[x]? = some (some m) → S.oldNew[x]? = some (some m)

variable {T}

theorem Fcx.Le.below {s t S : Fcx} (h : s.Le t) (h' : t.Below S) : s.Below S :=
  ⟨h.intern.trans h'.intern, h.code.trans h'.code, fun hm => h'.oldNew (h.oldNew hm)⟩

theorem Fcx.Below.refl (s : Fcx) : s.Below s :=
  ⟨Intern.Le.refl _, List.prefix_refl _, id⟩

theorem Fcx.Below.trans {s t S : Fcx} (h : s.Below t) (h' : t.Below S) : s.Below S :=
  ⟨h.intern.trans h'.intern, h.code.trans h'.code, fun hm => h'.oldNew (h.oldNew hm)⟩

/-! ## One `fold` -/

section
variable {p : Intern} {code : List Ins} {j : Ins}

/-- A debug `foldintarith` that does not panic computes what the release one computes. -/
theorem foldintarith_debug_of_release {op : Opcode} {l r v : BitVec 64}
    (h : foldintarith false op l r = .ok v) (hne : foldintarith true op l r ≠ .error .panic) :
    foldintarith true op l r = .ok v := by
  cases hd : foldintarith true op l r with
  | error e => obtain rfl := foldintarith_error hd; exact absurd hd hne
  | ok v' => exact (foldintarith_of_debug hd).symm.trans h

/-- Under its checks, the constant arm of a debug build returns what the release one
returns. -/
theorem foldConst_debug_of_release {op : Opcode} {ty : Ty} {left right c : Ins} {p' : Intern}
    (h : foldConst false p op ty left right = .ok (p', c)) (hd : DebugChecks p op ty left right) :
    foldConst true p op ty left right = .ok (p', c) := by
  obtain ⟨hl, hr, hty, hov⟩ := hd
  rcases foldConst_ok h with ⟨hf, l, r, v, hl', hr', hv, hn⟩ | ⟨hf, l, r, v, hl', hr', hv, hn⟩
  · simp [foldConst, hl, hr, hf, hl', hr', hv, hn]
  · have hi : ty.isInt := hty.resolve_right (by simp [hf])
    simp [foldConst, hl, hr, hf, hi, hl', hr', hn,
      foldintarith_debug_of_release hv (hov l r hf hl' hr')]

/-- Past the constant arm, a debug `fold` over code without `MOV` returns what the release one
returns: its one other check, that the operand of a `MOV` is no `MOV`, holds. -/
theorem fold_debug_eq (hmov : ∀ i ∈ code, i.opcode ≠ .MOV) (hf : foldsConst T code j = false) :
    fold T true p code j = fold T false p code j := by
  have hm : ((code[j.a]?.map Ins.opcode) == some .MOV) = false := by
    cases hc : code[j.a]? with
    | none => rfl
    | some i => simpa using hmov i (List.getElem?_mem hc)
  simp only [fold, hf, hm, Bool.false_eq_true, Bool.and_false, ↓reduceIte]

/-- A debug `fold` over code without `MOV` returns what the release one returns, when its
constant arm, if it applies, passes the checks. -/
theorem fold_debug_of_release {r : Intern × FoldStatus} (hmov : ∀ i ∈ code, i.opcode ≠ .MOV)
    (hc : ∀ left right, foldsConst T code j → code[j.a]? = some left → code[j.b]? = some right →
      DebugChecks p j.opcode j.ty left right)
    (h : fold T false p code j = .ok r) : fold T true p code j = .ok r := by
  by_cases hf : foldsConst T code j
  · rw [fold, if_pos hf] at h ⊢
    cases hl : code[j.a]? with
    | none => simp [hl] at h
    | some left =>
      cases hr : code[j.b]? with
      | none => simp [hl, hr] at h
      | some right =>
        simp only [hl, hr] at h ⊢
        obtain ⟨i, hi, hst⟩ := map_done_eq_ok h
        rw [foldConst_debug_of_release hi (hc left right hf hl hr), map_ok, ← hst]
  · rw [fold_debug_eq hmov (by simpa using hf)]
    exact h

/-- A debug `fold` that returns took the constant arm, when it applies, without panicking. -/
theorem foldConst_of_fold {debug : Bool} {q : Intern × FoldStatus} {left right : Ins}
    (hf : foldsConst T code j) (hl : code[j.a]? = some left) (hr : code[j.b]? = some right)
    (h : fold T debug p code j = .ok q) : ∃ c, foldConst debug p j.opcode j.ty left right = .ok c := by
  simp only [fold, hf, hl, hr, if_true] at h
  obtain ⟨i, hi, -⟩ := map_done_eq_ok h
  exact ⟨_, hi⟩

end

/-! ## The loop around `fold` -/

/-- The loop around a debug `fold` returns what the release loop returns, when the constant
arm of its first `fold` passes the checks: a swapped instruction does not fold constants. -/
theorem Fcx.foldLoop_debug_of_release :
    ∀ {fuel : Nat} {s : Fcx} {j : Ins} {r : Fcx × Nat}, (∀ i ∈ s.code, i.opcode ≠ .MOV) →
      (∀ left right, foldsConst T s.code j → s.code[j.a]? = some left →
        s.code[j.b]? = some right → DebugChecks s.intern j.opcode j.ty left right) →
      s.foldLoop T false fuel j = .ok r → s.foldLoop T true fuel j = .ok r
  | 0, _, _, _, _, _, h => h
  | fuel + 1, s, j, r, hmov, hc, h => by
    unfold Fcx.foldLoop at h ⊢
    split at h
    · cases h
    all_goals rename_i hf; rw [fold_debug_of_release hmov hc hf]
    · obtain ⟨rfl, rfl, hf', -⟩ := fold_again hf
      exact Fcx.foldLoop_debug_of_release hmov
        (fun _ _ hk => absurd (foldsConst_swapInputs.symm.trans hk) (by simp [hf'])) h
    · exact h
    · exact h

/-- A loop around `fold` that returns returned from its first `fold`. -/
theorem Fcx.fold_of_foldLoop {debug : Bool} {fuel : Nat} {s : Fcx} {j : Ins} {r : Fcx × Nat}
    (h : s.foldLoop T debug fuel j = .ok r) : ∃ q, fold T debug s.intern s.code j = .ok q := by
  cases fuel with
  | zero => cases h
  | succ fuel =>
    unfold Fcx.foldLoop at h
    split at h
    · cases h
    all_goals exact ⟨_, ‹_›⟩

/-! ## A node step -/

/-- The operands of the renamed arithmetic instruction are the new ids of its operands. -/
theorem Ins.mapSlots_arith {ins : Ins} (h : ins.opcode.isArith) (g : Nat → Nat) :
    (ins.mapSlots g (ins.opcode.inputs T)).a = g ins.a ∧
      (ins.mapSlots g (ins.opcode.inputs T)).b = g ins.b := by
  rw [Opcode.inputs_of_isArith h]
  exact ⟨rfl, rfl⟩

/-- The state of a run the checks of a debug build read: the shape of the buffers, normal new
code, and types. -/
structure Fcx.DebugReady (T : OpTable) (f : Func) (s : Fcx) : Prop where
  wf : s.Wf T f
  normal : s.NormalCode T
  typed : s.Typed T f

namespace Fcx.DebugReady

variable {debug : Bool} {f : Func} {s t : Fcx} {id n : Nat}

theorem init (p : Intern) (f : Func) : (Fold.init p f).DebugReady T f :=
  ⟨Fcx.Wf.init p f, fun hk => by simp [Fold.init] at hk, Fcx.Typed.init p f⟩

theorem withNext (h : s.DebugReady T f) (rest : List Nat) :
    ({ s with next := rest } : Fcx).DebugReady T f :=
  ⟨h.wf.of_eq rfl rfl rfl, h.normal, h.typed.withNext rest⟩

theorem nodeStep (h : s.DebugReady T f) (hwt : f.WellTyped T) (hr : f.Reach T id)
    (hs : NodeStep T debug f s id t n) : t.DebugReady T f :=
  ⟨h.wf.nodeStep hs, Fcx.NormalCode.nodeStep h.wf h.normal hs, h.typed.nodeStep hwt hr hs⟩

/-- The new code holds no `MOV`. -/
theorem not_mov (h : s.DebugReady T f) : ∀ i ∈ s.code, i.opcode ≠ .MOV := fun _ hi =>
  let ⟨_, hk⟩ := List.getElem?_of_mem hi
  (h.normal hk).2.2.2.2.2

end Fcx.DebugReady

/-- At a node of a well-typed function whose operands are visited, the constant arm of the
first `fold` passes the checks of a debug build, unless the node overflows in buffers that
keep what the state recorded. -/
theorem debugChecks_of_not_overflowsAt {f : Func} {s S : Fcx} {id : Nat} {ins : Ins}
    (hs : s.DebugReady T f) (hwt : f.WellTyped T) (hat : f.ArithTyped T) (hr : f.Reach T id)
    (hins : f.code[id]? = some ins) (hin : ∀ x ∈ ins.inputs T, ∃ m, s.oldNew[x]? = some (some m))
    (hS : s.Below S) (hno : ¬ S.OverflowsAt T f id) {left right : Ins}
    (hf : foldsConst T s.code (ins.mapSlots s.newId (ins.opcode.inputs T)))
    (hl : s.code[(ins.mapSlots s.newId (ins.opcode.inputs T)).a]? = some left)
    (hr' : s.code[(ins.mapSlots s.newId (ins.opcode.inputs T)).b]? = some right) :
    DebugChecks s.intern ins.opcode ins.ty left right := by
  simp only [foldsConst, Bool.and_eq_true, Ins.opcode_mapSlots] at hf
  obtain ⟨⟨hop, hcl⟩, hcr⟩ := hf
  have hia : ins.a ∈ ins.inputs T := by simp [Ins.inputs_of_isArith hop]
  have hib : ins.b ∈ ins.inputs T := by simp [Ins.inputs_of_isArith hop]
  obtain ⟨a, ha⟩ := hin _ hia
  obtain ⟨b, hb⟩ := hin _ hib
  obtain ⟨hja, hjb⟩ := Ins.mapSlots_arith hop s.newId
  rw [hja, Fcx.newId_of_getElem? ha] at hl hcl
  rw [hjb, Fcx.newId_of_getElem? hb] at hr' hcr
  rw [isConstAt_of_getElem? hl] at hcl
  rw [isConstAt_of_getElem? hr'] at hcr
  -- the operands keep the types of the old operands, which have the node's type
  have hti := hwt id ins hr hins
  have htl := hs.typed.ty_input hti (.inl hop) hia ha
  have htr := hs.typed.ty_input hti (.inl hop) hib hb
  rw [hl] at htl
  rw [hr'] at htr
  refine ⟨Option.some.inj htl, Option.some.inj htr, hat id ins hr hins hop, ?_⟩
  -- an overflow here is one in `S`, which keeps the operands and their values
  intro l r hfl hkl hkr hov
  exact hno ⟨ins, a, b, left, right, l, r, hins, hop, hfl, hS.oldNew ha, hS.oldNew hb,
    getElem?_of_prefix hS.code hl, getElem?_of_prefix hS.code hr', hcl, hcr,
    kintvalue_of_le hS.intern hkl, kintvalue_of_le hS.intern hkr, hov⟩

/-! ## Release to debug -/

/-- The input loop with calls `v'` returns what it returns with calls `v`, when `v'` returns
what `v` returns on every call from a state with `P` whose result is `Below` `S`, and the
loop's result is `Below` `S`. -/
theorem visitInputs_of_imp_below {P : Fcx → Prop} {X : Nat → Prop} {S : Fcx}
    {v v' : Fcx → Nat → Except Halt (Fcx × Nat)}
    (hv : ∀ {s x t m}, X x → P s → v s x = .ok (t, m) → P t ∧ s.Le t)
    (himp : ∀ {s x t m}, X x → P s → t.Below S → v s x = .ok (t, m) → v' s x = .ok (t, m)) :
    ∀ {slots : List Slot} {s t : Fcx} {ins ins' : Ins}, slots.Nodup →
      (∀ sl ∈ slots, X (ins.get sl)) → P s → t.Below S →
      visitInputs v slots s ins = .ok (t, ins') →
      s.Le t ∧ visitInputs v' slots s ins = .ok (t, ins')
  | [], _, _, _, _, _, _, _, _, h => by cases h; exact ⟨Fcx.Le.refl _, rfl⟩
  | sl :: slots, s, t, ins, ins', hnd, hX, hp, hS, h => by
    obtain ⟨hsl, hnd⟩ := List.nodup_cons.mp hnd
    simp only [visitInputs] at h ⊢
    split at h
    · cases h
    rename_i s₁ x hvx
    have hx := hX sl (List.mem_cons_self _ _)
    obtain ⟨hp₁, hle₁⟩ := hv hx hp hvx
    obtain ⟨hle₂, h'⟩ := visitInputs_of_imp_below hv himp hnd (fun sl' h' => by
        have hne : sl' ≠ sl := fun e => hsl (e ▸ h')
        rw [Ins.get_set_of_ne _ _ hne]
        exact hX sl' (List.mem_cons_of_mem _ h')) hp₁ hS h
    rw [himp hx hp (hle₂.below hS) hvx]
    exact ⟨hle₁.trans hle₂, h'⟩

section
variable {f : Func} {S : Fcx} (ha : f.Acyclic T) (hwt : f.WellTyped T) (hat : f.ArithTyped T)
  (hno : ∀ x, f.Reach T x → ¬ S.OverflowsAt T f x)

include ha in
/-- A `visit` extends the state. -/
theorem visit_le {debug : Bool} {fuel : Nat} {s t : Fcx} {id n : Nat}
    (h : visit T debug f fuel s id = .ok (t, n)) : s.Le t :=
  let ⟨_, hrk⟩ := ha
  (visit_induct (fun id ins h x hx => (hrk id ins h).2 x hx) (fun _ => True) (fun _ => True)
    (fun _ _ _ _ _ _ => trivial) (fun _ _ _ _ _ _ _ => trivial) trivial trivial h).2.1

include ha hwt in
/-- A release `visit` of a reachable node keeps the invariant and extends the state. -/
theorem Fcx.DebugReady.visit {debug : Bool} {fuel : Nat} {s t : Fcx} {id n : Nat}
    (hr : f.Reach T id) (hs : s.DebugReady T f) (h : Fhk5.visit T debug f fuel s id = .ok (t, n)) :
    t.DebugReady T f ∧ s.Le t :=
  let ⟨_, hrk⟩ := ha
  let hv := visit_induct (fun id ins h x hx => (hrk id ins h).2 x hx) (Fcx.DebugReady T f) (f.Reach T)
    (fun _ _ hq hins _ hx => .edge hq hins (List.mem_append_left _ hx))
    (fun _ _ _ _ hq hp hs => hp.nodeStep hwt hq hs) hr hs h
  ⟨hv.1, hv.2.1⟩

include ha hwt hat hno in
/-- A debug `visit` of a reachable node returns what the release `visit` returns, when what it
returns is `Below` buffers where no reachable node overflows. -/
theorem visit_debug_of_release :
    ∀ {fuel : Nat} {s t : Fcx} {id n : Nat}, f.Reach T id → s.DebugReady T f → t.Below S →
      visit T false f fuel s id = .ok (t, n) → visit T true f fuel s id = .ok (t, n)
  | 0, _, _, _, _, _, _, _, h => by cases h
  | fuel + 1, s, t, id, n, hr, hs, hS, h => by
    obtain ⟨rank, hrk⟩ := ha
    unfold visit at h ⊢
    split at h
    · cases h
    · exact h
    rename_i hid
    split at h
    · cases h
    rename_i ins hins
    split at h
    · cases h
    rename_i s₁ ins₁ hin
    split at h
    · cases h
    rename_i u new hfl
    cases h
    have hX : ∀ sl ∈ ins.opcode.inputs T, f.Reach T (ins.get sl) ∧ rank (ins.get sl) < rank id :=
      fun sl h => ⟨.edge hr hins (List.mem_append_left _ (Ins.mem_inputs h)),
        (hrk id ins hins).2 _ (Ins.mem_inputs h)⟩
    obtain ⟨hp₁, -, hrec, rfl, hb⟩ := visitInputs_spec
      (fun {_ x _ _} (hx : f.Reach T x ∧ rank x < rank id) hp h =>
        visit_induct (fun id ins h x hx => (hrk id ins h).2 x hx) (Fcx.DebugReady T f) (f.Reach T)
          (fun _ _ hq hins _ hx => .edge hq hins (List.mem_append_left _ hx))
          (fun _ _ _ _ hq hp hs => hp.nodeStep hwt hq hs) hx.1 hp h)
      (ins.opcode.nodup_inputs) hX hs hin
    -- the inputs do not reach the node, so recording it extends the state
    have hid₁ : s₁.oldNew[id]? = some none := by
      by_contra hne
      obtain ⟨sl, hsl, hle⟩ := hb id hid hne
      exact absurd (hX sl hsl).2 (by omega)
    have hS₁ : s₁.Below S := (Fcx.le_foldLoop T hfl).below
      ((Fcx.le_record ((Fcx.oldNew_foldLoop T hfl).symm ▸ hid₁) _).below hS)
    rw [(visitInputs_of_imp_below (P := Fcx.DebugReady T f) (X := f.Reach T)
      (fun hx hp h => hp.visit ⟨rank, hrk⟩ hwt hx h)
      (fun hx hp hS h => visit_debug_of_release hx hp hS h) (ins.opcode.nodup_inputs)
      (fun sl h => (hX sl h).1) hs hS₁ hin).2]
    dsimp only
    rw [Fcx.foldLoop_debug_of_release hp₁.not_mov (fun left right hf hl hr' => by
      simpa using debugChecks_of_not_overflowsAt hp₁ hwt hat hr hins
        (fun x hx => by obtain ⟨sl, hsl, rfl⟩ := List.mem_map.mp hx; exact hrec sl hsl)
        hS₁ (hno id hr) hf hl hr') hfl]

include ha hwt hat hno in
/-- The debug loop of `Fold::run` from a state of the search returns what the release loop
returns, when that is `Below` buffers where no reachable node overflows. -/
theorem bfs_debug_of_release {fuel : Nat} :
    ∀ {k : Nat} {s t : Fcx}, s.Closed T f none → s.DebugReady T f → t.Below S →
      bfs T false f fuel k s = .ok t → bfs T true f fuel k s = .ok t
  | 0, _, _, _, _, _, h => by cases h
  | k + 1, s, t, hc, hs, hS, h => by
    unfold bfs at h ⊢
    split at h
    · exact h
    rename_i id rest hn
    split at h
    · cases h
    rename_i s₁ n hv
    have hr := hc.queued id (by simp [hn])
    have hc₁ := (hc.pop hn).visit ha hr hv
    obtain ⟨hs₁, -⟩ := (hs.withNext rest).visit ha hwt hr hv
    -- the rest of the loop keeps what the visit recorded
    have hle : s₁.Below t := (bfs_induct (fun u => s₁.Below u)
      (fun hp _ hv' => let hl := visit_le ha hv'; hp.trans ⟨hl.intern, hl.code, hl.oldNew⟩)
      (Fcx.Below.refl _) h).1
    rw [visit_debug_of_release ha hwt hat hno hr (hs.withNext rest) (hle.trans hS) hv]
    exact bfs_debug_of_release (hc₁.1.settle hc₁.2) hs₁ hS h

end

/-! ## Debug to release -/

/-- Every node a run visited folded its constants under the checks of a debug build, read in
any buffers that keep what the state recorded. -/
def Fcx.Checked (T : OpTable) (f : Func) (s S : Fcx) : Prop :=
  s.Below S → ∀ x, s.Visited x → ¬ S.OverflowsAt T f x

/-- A debug node step checks the node it visits. -/
theorem Fcx.Checked.nodeStep {f : Func} {S s t : Fcx} {id n : Nat} (hw : s.Wf T f)
    (h : s.Checked T f S) (hs : NodeStep T true f s id t n) : t.Checked T f S := by
  intro hS x ⟨m, hm⟩ hov
  have hS' := hs.le.below hS
  rw [nodeStep_oldNew hs] at hm
  by_cases hx : x = id
  · subst x
    obtain ⟨ins, fuel, u, hins, -, hin, hfl, -⟩ := hs
    obtain ⟨ins', a, b, left, right, l, r, hins', hop, hfl', ha, hb, hl, hr, hcl, hcr, hkl, hkr,
      hov⟩ := hov
    cases hins.symm.trans hins'
    -- the operands had these constants when the node was folded
    have hnew : ∀ {x k : Nat} {i : Ins}, x ∈ ins.inputs T → S.oldNew[x]? = some (some k) →
        S.code[k]? = some i → s.newId x = k ∧ s.code[k]? = some i := by
      intro x k i hx hk hi
      obtain ⟨k', hk'⟩ := hin x hx
      cases (hS'.oldNew hk').symm.trans hk
      obtain ⟨i', hi'⟩ : ∃ i', s.code[k]? = some i' :=
        Option.isSome_iff_exists.mp (by simp [hw.lt hk'])
      cases ( getElem?_of_prefix hS'.code hi').symm.trans hi
      exact ⟨Fcx.newId_of_getElem? hk', hi'⟩
    obtain ⟨hna, hla⟩ := hnew (by simp [Ins.inputs_of_isArith hop]) ha hl
    obtain ⟨hnb, hlb⟩ := hnew (by simp [Ins.inputs_of_isArith hop]) hb hr
    obtain ⟨hja, hjb⟩ := Ins.mapSlots_arith (T := T) hop s.newId
    rw [← hna, ← hja] at hla
    rw [← hnb, ← hjb] at hlb
    have hf : foldsConst T s.code (ins.mapSlots s.newId (ins.opcode.inputs T)) := by
      simp [foldsConst, isConstAt_of_getElem? hla, isConstAt_of_getElem? hlb, hop, hcl, hcr]
    -- so the first `fold` took the constant arm, whose `foldintarith` returned
    obtain ⟨q, hq⟩ := Fcx.fold_of_foldLoop hfl
    obtain ⟨c, hc⟩ := foldConst_of_fold hf hla hlb hq
    rcases foldConst_ok hc with ⟨hfl'', -⟩ | ⟨-, l', r', v, hl', hr', hv, -⟩
    · exact absurd hfl'' (by simp [hfl'])
    · cases (kintvalue_of_le hS'.intern hl').symm.trans hkl
      cases (kintvalue_of_le hS'.intern hr').symm.trans hkr
      rw [Ins.opcode_mapSlots, hov] at hv
      cases hv
  · rw [if_neg hx] at hm
    exact h hS' x ⟨m, hm⟩ hov

/-- A debug loop of `Fold::run` that returns checked every node it visited. -/
theorem bfs_checked {f : Func} {S s t : Fcx} (ha : f.Acyclic T) {fuel k : Nat} (hw : s.Wf T f)
    (hc : s.Checked T f S) (hb : bfs T true f fuel k s = .ok t) : t.Checked T f S :=
  (bfs_nodeStep_induct ha (fun s => s.Wf T f ∧ s.Checked T f S)
    (fun h => ⟨h.1.of_eq rfl rfl rfl, fun hS => h.2 ⟨hS.1, hS.2, hS.3⟩⟩)
    (fun h hs => ⟨h.1.nodeStep hs, h.2.nodeStep h.1 hs⟩) ⟨hw, hc⟩ hb).2

/-! ## Debug and release -/

section
variable {f g : Func} {p : Intern} {s : Fcx} (ha : f.Acyclic T) (hwt : f.WellTyped T)
  (hat : f.ArithTyped T)
include ha hwt hat

/-- A debug build of `Fold::run` returns what the release build returns exactly when no
reachable instruction overflows in the buffers the release run leaves, and panics
otherwise: on a well-typed acyclic function whose arithmetic is at integer or float types,
the other `debug_assert!`s of `fold` hold. -/
theorem Fold.run_debug (h : Fold.run T false p f = .ok (s, g)) :
    (Fold.run T true p f = .ok (s, g) ↔ ∀ x, f.Reach T x → ¬ s.OverflowsAt T f x) ∧
      (Fold.run T true p f ≠ .ok (s, g) → Fold.run T true p f = .error .panic) := by
  obtain ⟨-, hreach, -⟩ := Fold.run_spec ha h
  obtain ⟨hb, -⟩ := Fold.run_ok h
  refine ⟨⟨fun hd x hx => ?_, fun hno => ?_⟩, fun hne => ?_⟩
  · -- a debug run that returns checked every node it visited
    exact bfs_checked ha (Fcx.Wf.init p f) (fun _ x hx => absurd hx (Fold.init_oldNew p f x))
      (Fold.run_ok hd).1 (Fcx.Below.refl s) x ((hreach x).mpr hx)
  · -- without an overflow the debug run follows the release run
    have hb' := bfs_debug_of_release ha hwt hat hno (Fcx.Closed.init p f) (Fcx.DebugReady.init p f)
      (Fcx.Below.refl s) hb
    unfold Fold.run at h ⊢
    rw [hb']
    rw [hb] at h
    exact h
  · cases hd : Fold.run T true p f with
    | ok r =>
      obtain rfl : r = (s, g) := Except.ok.inj ((Fold.run_of_debug hd).symm.trans h)
      exact absurd hd hne
    | error e => rw [Fold.run_error ha hd]

end

/-- Every arithmetic instruction of the code at an integer or float type makes the function
`ArithTyped`. -/
theorem Func.arithTyped_of_forall {f : Func}
    (h : ∀ i ∈ f.code, i.opcode.isArith → i.ty.isInt ∨ i.ty.isFloat) : f.ArithTyped T :=
  fun _ _ _ hins => h _ (List.getElem?_mem hins)

/-- `v0 = KINT64 i64::MAX; v1 = KINT 1; v2 = ADD v0 v1; RET v2` at `I64`, with `i64::MAX` in
the pool. -/
def Func.sampleOverflow : Func :=
  ⟨[Ins.KINT64 .I64 0, Ins.KINT .I64 1, ⟨.ADD, .I64, 0, 1, 0⟩, ⟨.op 0, .FX, 2, 0, 0⟩], 3⟩

theorem Fold.run_debug_sample :
    Func.sampleOverflow.Acyclic OpTable.sample ∧ Func.sampleOverflow.WellTyped OpTable.sample ∧
      Func.sampleOverflow.ArithTyped OpTable.sample ∧ ∃ s g,
      Fold.run OpTable.sample false ⟨[BitVec.intMax 64]⟩ Func.sampleOverflow = .ok (s, g) ∧
      (Fold.run OpTable.sample true ⟨[BitVec.intMax 64]⟩ Func.sampleOverflow = .ok (s, g) ↔
        ∀ x, Func.sampleOverflow.Reach OpTable.sample x →
          ¬ s.OverflowsAt OpTable.sample Func.sampleOverflow x) ∧
      (Fold.run OpTable.sample true ⟨[BitVec.intMax 64]⟩ Func.sampleOverflow ≠ .ok (s, g) →
        Fold.run OpTable.sample true ⟨[BitVec.intMax 64]⟩ Func.sampleOverflow = .error .panic) := by
  have ha : Func.sampleOverflow.Acyclic OpTable.sample := Func.Topo.acyclic _ (by decide)
  have hwt : Func.sampleOverflow.WellTyped OpTable.sample := Func.wellTyped_of_forall (by decide)
  have hat : Func.sampleOverflow.ArithTyped OpTable.sample := Func.arithTyped_of_forall (by decide)
  exact ⟨ha, hwt, hat, _, _, rfl, Fold.run_debug ha hwt hat
    (rfl : Fold.run OpTable.sample false ⟨[BitVec.intMax 64]⟩ Func.sampleOverflow = _)⟩

/-- The release run wraps `i64::MAX + 1` to `i64::MIN`; the debug run panics. -/
example : Fold.run OpTable.sample true ⟨[BitVec.intMax 64]⟩ Func.sampleOverflow = .error .panic :=
  rfl

end Fhk5
