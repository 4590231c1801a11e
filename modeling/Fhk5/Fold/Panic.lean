import Fhk5.Fold.Result

/-!
# A release build of `Fold::run` panics only where the input asks it to

`Fold::run` fails only by panicking (`Fold.run_error`).  In a release build the panics left
are those of the constant arm of `fold`.  It reads its operands with `kintvalue` or
`kfpvalue`, which reach `unreachable!()` on an `is_const` opcode other than the three
literals, and read the pool at the handle of a `KINT64` or `KFP64`.  It computes with
`foldintarith`, whose `DIV` and `UDIV` panic on a zero divisor (and `DIV` on `i64::MIN / -1`)
and which reaches `unreachable!()` on `POW`, or with `foldfparith`, which reaches it on
`UDIV`.  `Ins.Foldable` rules these out for one instruction: a literal whose pool word is
there, `MOV`, `ADD`, `SUB` and `MUL` at every type, `DIV` and `POW` on floats, and any opcode of
the table that is not `is_const`.

The invariant `Fcx.Safe` says that `old_new` is sized to the function, that the pool
extends the one the run started from, and that every instruction of the new code is
`Foldable` at the current pool.  It holds at the start, and a node step at a reachable node
keeps it: the instruction `fold` pushes is the renamed node, or a literal `newkint` or
`newkfp` has just put in the pool.  Under it a release `fold` returns (`fold_release_ok`),
so the loop around `fold` fails only on fuel, and through the error inductions of `visit`
and of the loop, so does the loop of `Fold::run`, whose fuel never runs out.  So a release
build of `Fold::run` returns on every acyclic function whose reachable instructions are
`Foldable` (`Fold.run_release_ok`), and what any build returns is such a function again,
at the grown pool (`Fold.run_foldable`).
-/

namespace Fhk5

variable (T : OpTable)

/-- An instruction that the release build of `fold` reads as an operand, and folds, without
panicking. -/
def Ins.Foldable (p : Intern) (i : Ins) : Bool :=
  match i.opcode with
  | .KINT | .MOV | .ADD | .SUB | .MUL => true
  | .KINT64 | .KFP64 => (p.read i.bc).isSome
  | .DIV | .POW => i.ty.isFloat
  | .UDIV => false
  | .op n => !T.isConst n

/-- Every instruction of the new code is `Foldable` at the current pool. -/
def Fcx.Foldable (s : Fcx) : Prop := ∀ i ∈ s.code, i.Foldable T s.intern

/-- Every id the entry of `f` reaches holds an instruction `Foldable` at `p`. -/
def Func.Foldable (p : Intern) (f : Func) : Prop :=
  ∀ x, f.Reach T x → ∃ ins, f.code[x]? = some ins ∧ ins.Foldable T p

variable {T} {p q : Intern} {i : Ins}

/-! ## One instruction -/

theorem Intern.Le.isSome_read (h : p.Le q) {k : Nat} (hk : (p.read k).isSome) :
    (q.read k).isSome := by
  obtain ⟨w, hw⟩ := Option.isSome_iff_exists.mp hk
  simp [h.read hw]

theorem Ins.foldable_of_le (hpq : p.Le q) (h : i.Foldable T p) : i.Foldable T q := by
  cases ho : i.opcode <;> simp only [Ins.Foldable, ho] at h ⊢ <;>
    first | exact h | exact hpq.isSome_read h

/-- Renaming the inputs keeps the opcode and the type, and a literal has no input. -/
@[simp] theorem Ins.foldable_mapSlots (g : Nat → Nat) (ins : Ins) :
    (ins.mapSlots g (ins.opcode.inputs T)).Foldable T p = ins.Foldable T p := by
  cases ho : ins.opcode <;> simp [Ins.Foldable, ho, Opcode.inputs, Ins.mapSlots]

theorem Ins.foldable_of_isComm (h : i.opcode.isComm) : i.Foldable T p := by
  cases ho : i.opcode <;> simp_all [Ins.Foldable, Opcode.isComm]

/-- `fixup` keeps the opcode and the type, and changes no slot of a literal. -/
theorem Ins.Fixed.foldable {oldNew : List (Option Nat)} {ins ins' : Ins}
    (h : ins.Fixed T oldNew ins') : ins'.Foldable T p = ins.Foldable T p := by
  cases ho : ins.opcode with
  | op n => simp [Ins.Foldable, h.opcode, ho]
  | _ => rw [h.eq_of_controls (by simp [ho, Opcode.controls])]

theorem foldable_newkint (p : Intern) (ty : Ty) (v : BitVec 64) :
    (newkint p ty v).2.Foldable T (newkint p ty v).1 := by
  unfold newkint; split <;> simp [Ins.Foldable, Intern.read_intern]

theorem foldable_newkfp (p : Intern) (ty : Ty) (v : Float) :
    (newkfp p ty v).2.Foldable T (newkfp p ty v).1 := by
  unfold newkfp; dsimp only; split <;> simp [Ins.Foldable, Intern.read_intern]

/-- A `Foldable` constant is a literal whose pool word, if it has one, is there. -/
theorem Ins.literal_of_foldable (h : i.Foldable T p) (hc : i.opcode.isConst T) :
    i.opcode = .KINT ∨ (i.opcode = .KINT64 ∨ i.opcode = .KFP64) ∧ ∃ w, p.read i.bc = some w := by
  cases ho : i.opcode <;> simp_all [Ins.Foldable, Opcode.isConst, Option.isSome_iff_exists]

theorem kintvalue_of_foldable (h : i.Foldable T p) (hc : i.opcode.isConst T) :
    ∃ v, kintvalue p i = .ok v := by
  rcases Ins.literal_of_foldable h hc with ho | ⟨ho | ho, w, hw⟩
  · simp [kintvalue, ho]
  all_goals simp [kintvalue, ho, hw]

theorem kfpvalue_of_foldable (h : i.Foldable T p) (hc : i.opcode.isConst T) :
    ∃ v, kfpvalue p i = .ok v := by
  rcases Ins.literal_of_foldable h hc with ho | ⟨ho | ho, w, hw⟩
  · simp [kfpvalue, ho]
  all_goals simp [kfpvalue, ho, hw]

/-! ## `fold` -/

variable {code : List Ins} {j : Ins}

/-- A `Foldable` arithmetic instruction is an `ADD`, a `SUB` or a `MUL`, or a float `DIV` or
`POW`. -/
theorem Ins.arith_of_foldable (h : i.Foldable T p) (hop : i.opcode.isArith) :
    i.opcode = .ADD ∨ i.opcode = .SUB ∨ i.opcode = .MUL ∨
      i.ty.isFloat ∧ (i.opcode = .DIV ∨ i.opcode = .POW) := by
  cases ho : i.opcode <;> simp_all [Ins.Foldable, Opcode.isArith]

/-- The constant arm of a release build returns on a `Foldable` arithmetic instruction whose
operands are `Foldable` constants. -/
theorem foldConst_release_ok {left right : Ins} (hop : j.opcode.isArith) (hj : j.Foldable T p)
    (hl : left.Foldable T p) (hlc : left.opcode.isConst T)
    (hr : right.Foldable T p) (hrc : right.opcode.isConst T) :
    ∃ c, foldConst false p j.opcode j.ty left right = .ok c := by
  have hk := Ins.arith_of_foldable hj hop
  by_cases hf : j.ty.isFloat
  · obtain ⟨l, hl'⟩ := kfpvalue_of_foldable hl hlc
    obtain ⟨r, hr'⟩ := kfpvalue_of_foldable hr hrc
    obtain ⟨v, hv⟩ : ∃ v, foldfparith j.opcode l r = .ok v := by
      rcases hk with ho | ho | ho | ⟨-, ho | ho⟩ <;> rw [ho] <;> exact ⟨_, rfl⟩
    exact ⟨newkfp p j.ty v, by simp [foldConst, hf, hl', hr', hv]⟩
  · obtain ⟨l, hl'⟩ := kintvalue_of_foldable hl hlc
    obtain ⟨r, hr'⟩ := kintvalue_of_foldable hr hrc
    -- at an integer type only `ADD`, `SUB` and `MUL` are `Foldable`, and they wrap
    obtain ⟨v, hv⟩ : ∃ v, foldintarith false j.opcode l r = .ok v := by
      rcases hk with ho | ho | ho | ⟨hfl, -⟩
      all_goals first | exact absurd hfl hf | rw [ho]; exact ⟨_, rfl⟩
    exact ⟨newkint p j.ty v, by simp [foldConst, hf, hl', hr', hv]⟩

/-- A release `fold` of a `Foldable` instruction over `Foldable` code returns. -/
theorem fold_release_ok (hcode : ∀ i ∈ code, i.Foldable T p) (hj : j.Foldable T p) :
    ∃ r, fold T false p code j = .ok r := by
  by_cases hf : foldsConst T code j
  · rw [fold, if_pos hf]
    simp only [foldsConst, isConstAt, Bool.and_eq_true] at hf
    obtain ⟨⟨hop, ha⟩, hb⟩ := hf
    cases hl : code[j.a]? with
    | none => simp [hl] at ha
    | some left =>
      cases hr : code[j.b]? with
      | none => simp [hr] at hb
      | some right =>
        simp only [hl, hr] at ha hb
        obtain ⟨c, hc⟩ := foldConst_release_ok hop hj (hcode _ (List.getElem?_mem hl)) ha
          (hcode _ (List.getElem?_mem hr)) hb
        exact ⟨(c.1, .Done c.2), by simp only [hc, map_ok]⟩
  · -- past the constant arm only the debug check of `MOV` fails
    rw [fold, if_neg hf]
    simp only [Bool.false_and, Bool.false_eq_true, ↓reduceIte, ← apply_ite Except.ok]
    exact ⟨_, rfl⟩

/-- What a `Done` arm gives is `Foldable` at the pool it returns: the instruction itself, a
literal `newkint` or `newkfp` built, or the `KINT` of `x * 0`. -/
theorem foldable_of_fold_done {debug : Bool} {p' : Intern} (hj : j.Foldable T p)
    (h : fold T debug p code j = .ok (p', .Done i)) : i.Foldable T p' := by
  rcases fold_done h with ⟨-, l, r, -, -, hc⟩ | ⟨rfl, -, rfl⟩ | ⟨rfl, rfl, -⟩
  · rcases foldConst_ok hc with ⟨-, _, _, v, -, -, -, hv⟩ | ⟨-, _, _, v, -, -, -, hv⟩
    · simpa [hv] using foldable_newkfp (T := T) p j.ty v
    · simpa [hv] using foldable_newkint (T := T) p j.ty v
  · simp [Ins.Foldable]
  · exact hj

/-! ## The buffers -/

variable {s : Fcx}

theorem Fcx.Foldable.withIntern (hs : s.Foldable T) (hp : s.intern.Le p) :
    ({ s with intern := p } : Fcx).Foldable T :=
  fun i hi => Ins.foldable_of_le hp (hs i hi)

theorem Fcx.Foldable.done (hs : s.Foldable T) (hi : i.Foldable T s.intern) :
    (s.done T i).1.Foldable T := by
  rcases done_cases T s i with ⟨-, idx, -, -, h⟩ | ⟨-, h⟩ <;> rw [h]
  · simpa [Fcx.Foldable] using hs
  · intro j hj
    simp only [Fcx.push_code, Fcx.enqueue_code, List.mem_append, List.mem_singleton] at hj
    simp only [Fcx.push_intern, Fcx.enqueue_intern]
    rcases hj with hj | rfl
    exacts [hs j hj, hi]

/-- The swap of an `ADD` or a `MUL` stays `Foldable`. -/
theorem foldable_of_fold_again {debug : Bool} {p' : Intern} (h : fold T debug p code j = .ok (p', .Again i)) :
    i.Foldable T q := by
  obtain ⟨-, rfl, -, hsw⟩ := fold_again h
  simp only [swapsInputs, Bool.and_eq_true] at hsw
  exact Ins.foldable_of_isComm (by simpa using hsw.1)

/-- The loop around a release `fold` fails only on fuel. -/
theorem Fcx.foldLoop_release : ∀ {fuel : Nat} {s : Fcx} {j : Ins} {e : Halt}, s.Foldable T →
    j.Foldable T s.intern → s.foldLoop T false fuel j = .error e → e = .fuel
  | 0, _, _, _, _, _, h => by cases h; rfl
  | fuel + 1, s, j, e, hs, hj, h => by
    obtain ⟨⟨p, st⟩, hf⟩ := fold_release_ok hs hj
    unfold Fcx.foldLoop at h
    rw [hf] at h
    cases st with
    | Again i =>
      exact Fcx.foldLoop_release (hs.withIntern (le_fold hf)) (foldable_of_fold_again hf) h
    | New n => cases h
    | Done i => cases h

/-- A node step at a node whose instruction is `Foldable` keeps the new code `Foldable`. -/
theorem Fcx.Foldable.nodeStep {debug : Bool} {f : Func} {id n : Nat} {t : Fcx} {ins : Ins}
    (hs : s.Foldable T) (hins : f.code[id]? = some ins) (hi : ins.Foldable T s.intern)
    (h : NodeStep T debug f s id t n) : t.Foldable T := by
  obtain ⟨ins', fuel, u, hins', -, -, hfl, rfl⟩ := h
  obtain rfl : ins' = ins := Option.some.inj (hins'.symm.trans hins)
  obtain ⟨j, p, hj, hcase⟩ := foldLoop_induct (s := s) (fun j => j.Foldable T s.intern)
    (fun _ hf => foldable_of_fold_again hf) (by simpa using hi) hfl
  show u.Foldable T
  rcases hcase with ⟨hf, rfl⟩ | ⟨i, hf, hd⟩
  · exact hs.withIntern (le_fold hf)
  · obtain rfl := congrArg Prod.fst hd
    exact (hs.withIntern (le_fold hf)).done (foldable_of_fold_done hj hf)

/-! ## The invariant of the run -/

/-- The invariant of a run of `Fold::run` over `f` from the pool `p`. -/
structure Fcx.Safe (T : OpTable) (f : Func) (p : Intern) (s : Fcx) : Prop where
  /-- `old_new` is sized to the function. -/
  length : s.oldNew.length = f.code.length
  /-- The pool extends the one the run started from. -/
  pool : p.Le s.intern
  /-- The new code is `Foldable` at the pool. -/
  code : s.Foldable T

namespace Fcx.Safe

variable {debug : Bool} {f : Func} {id n : Nat} {t : Fcx}

theorem init (p : Intern) (f : Func) : (Fold.init p f).Safe T f p :=
  ⟨by simp [Fold.init], Intern.Le.refl p, by simp [Fcx.Foldable, Fold.init]⟩

theorem withNext (h : s.Safe T f p) (rest : List Nat) : ({ s with next := rest } : Fcx).Safe T f p :=
  ⟨h.length, h.pool, h.code⟩

/-- A node step at a reachable node of a `Foldable` function keeps the invariant. -/
theorem nodeStep (h : s.Safe T f p) (hf : f.Foldable T p) (hr : f.Reach T id)
    (hs : NodeStep T debug f s id t n) : t.Safe T f p := by
  have hle := hs.le
  obtain ⟨ins, hins, hi⟩ := hf id hr
  exact ⟨hle.length.trans h.length, h.pool.trans hle.intern,
    h.code.nodeStep hins (Ins.foldable_of_le h.pool hi) hs⟩

section
variable (ha : f.Acyclic T) (hf : f.Foldable T p)
include ha hf

/-- `visit` of a reachable node keeps the invariant. -/
theorem visit (h : s.Safe T f p) (hr : f.Reach T id) {fuel : Nat}
    (hv : Fhk5.visit T debug f fuel s id = .ok (t, n)) : t.Safe T f p :=
  let ⟨_, hrk⟩ := ha
  (visit_induct (fun id ins h x hx => (hrk id ins h).2 x hx) (Fcx.Safe T f p) (f.Reach T)
    (fun _ _ hq hins _ hx => .edge hq hins (List.mem_append_left _ hx))
    (fun _ _ _ _ hq hp hs => hp.nodeStep hf hq hs) hr h hv).1

/-- The loop of `Fold::run` from a state of the search keeps the invariant. -/
theorem bfs (h : s.Safe T f p) (hc : s.Closed T f none) {fuel k : Nat}
    (hb : Fhk5.bfs T debug f fuel k s = .ok t) : t.Safe T f p :=
  (bfs_induct (fun s => s.Closed T f none ∧ s.Safe T f p) (fun hp hn hv =>
    have hr := hp.1.queued _ (by simp [hn])
    have ht := (hp.1.pop hn).visit ha hr hv
    ⟨ht.1.settle ht.2, (hp.2.withNext _).visit ha hf hr hv⟩) ⟨hc, h⟩ hb).1.2

end

end Fcx.Safe

/-! ## Release runs -/

section
variable {f : Func} (ha : f.Acyclic T) (hf : f.Foldable T p)
include ha hf

/-- A release `visit` of a reachable node fails only on fuel. -/
theorem visit_release {fuel : Nat} {id : Nat} {e : Halt} (hr : f.Reach T id) (hs : s.Safe T f p)
    (h : visit T false f fuel s id = .error e) : e = .fuel := by
  obtain ⟨_, hrk⟩ := ha
  refine visit_error_induct (fun id ins h x hx => (hrk id ins h).2 x hx) (Fcx.Safe T f p)
    (f.Reach T) (fun _ _ hq hins _ hx => .edge hq hins (List.mem_append_left _ hx))
    (fun _ _ _ _ hq hp hs => hp.nodeStep hf hq hs) (· = .fuel) rfl
    (fun {s id} hq hp => ?_) (fun {s id ins fuel e} hq hp hins _ h => ?_) hr hs h
  · -- a reachable id is in the code, and `old_new` is as long
    obtain ⟨ins, hins, -⟩ := hf id hq
    have hlt : id < f.code.length := (List.getElem?_eq_some_iff.mp hins).1
    exact ⟨by simp [hp.length, hlt], by simp [hins]⟩
  · obtain ⟨ins', hins', hi⟩ := hf id hq
    cases hins.symm.trans hins'
    exact Fcx.foldLoop_release hp.code (by simpa using Ins.foldable_of_le hp.pool hi) h

/-- A release run of the loop of `Fold::run` from a state of the search fails only on
fuel. -/
theorem bfs_release {fuel k : Nat} {e : Halt} (hc : s.Closed T f none) (hs : s.Safe T f p)
    (h : bfs T false f fuel k s = .error e) : e = .fuel :=
  bfs_error_induct (fun s => s.Closed T f none ∧ s.Safe T f p) (· = .fuel) rfl
    (fun hp hn hv =>
      have hr := hp.1.queued _ (by simp [hn])
      have ht := (hp.1.pop hn).visit ha hr hv
      ⟨ht.1.settle ht.2, (hp.2.withNext _).visit ha hf hr hv⟩)
    (fun hp hn h => visit_release ha hf (hp.1.queued _ (by simp [hn])) (hp.2.withNext _) h)
    ⟨hc, hs⟩ h

/-- The loop of a release `Fold::run` returns. -/
theorem bfs_init_release :
    ∃ s, bfs T false f (f.code.length + 1) (3 * f.code.length + 2) (Fold.init p f) = .ok s := by
  cases hb : bfs T false f (f.code.length + 1) (3 * f.code.length + 2) (Fold.init p f) with
  | ok s => exact ⟨s, rfl⟩
  | error e =>
    -- only the fuel could stop it, and the fuel of `Fold::run` is enough
    obtain rfl := bfs_release ha hf (Fcx.Closed.init p f) (Fcx.Safe.init p f) hb
    have h : Fold.run T false p f = .error .fuel := by simp [Fold.run, hb]
    cases Fold.run_error ha h

end

/-- A release build of `Fold::run` returns on every acyclic function whose reachable
instructions are `Foldable`: it does not panic. -/
theorem Fold.run_release_ok {f : Func} (ha : f.Acyclic T) (hf : f.Foldable T p) :
    ∃ s g, Fold.run T false p f = .ok (s, g) :=
  let ⟨s, hb⟩ := bfs_init_release ha hf
  ⟨s, Fold.run_of_bfs ha hb⟩

/-- `v0 = KINT 1.0; v1 = KINT 0.0; v2 = DIV v0 v1; RET v2` at `F64`, with an unreachable
`i32` division by zero `v4 = DIV v3 v3` of `v3 = KINT 0`. -/
def Func.sampleFdiv : Func :=
  ⟨[Ins.KINT .F64 1, Ins.KINT .F64 0, ⟨.DIV, .F64, 0, 1, 0⟩, Ins.KINT .I32 0, ⟨.DIV, .I32, 3, 3, 0⟩,
    ⟨.op 0, .FX, 2, 0, 0⟩], 5⟩

/-- The float division by zero folds to infinity, and the integer one is never visited. -/
theorem Fold.run_release_ok_sample :
    Func.sampleFdiv.Acyclic OpTable.sample ∧ Func.sampleFdiv.Foldable OpTable.sample ⟨[]⟩ ∧
      ∃ s g, Fold.run OpTable.sample false ⟨[]⟩ Func.sampleFdiv = .ok (s, g) := by
  have ha : Func.sampleFdiv.Acyclic OpTable.sample := Func.Topo.acyclic _ (by decide)
  have hf : Func.sampleFdiv.Foldable OpTable.sample ⟨[]⟩ := fun x hx => by
    -- the return, the float division and its operands are closed under edges
    have := Func.Reach.mem_of_closed _ (fun x => x = 0 ∨ x = 1 ∨ x = 2 ∨ x = 5) (by simp [Func.sampleFdiv])
      (fun id ins x hid hins hx => by
        rcases hid with rfl | rfl | rfl | rfl <;>
          simp only [Func.sampleFdiv, List.getElem?_cons_succ, List.getElem?_cons_zero] at hins <;>
          cases hins <;> simp [Ins.edges, Ins.inputs, Ins.controls, Ins.get, Opcode.inputs,
            Opcode.controls, OpTable.sample] at hx <;> omega) hx
    rcases this with rfl | rfl | rfl | rfl <;> exact ⟨_, rfl, rfl⟩
  exact ⟨ha, hf, Fold.run_release_ok ha hf⟩

/-! ## What a run returns -/

/-- The reachable ids of a function whose edges and entry are in range are in range. -/
theorem Func.Reach.lt_length {f : Func} (hr : f.InRange T) (he : f.entry < f.code.length)
    {x : Nat} (h : f.Reach T x) : x < f.code.length :=
  Func.Reach.mem_of_closed T (· < f.code.length) he
    (fun _ _ _ _ hins hx => hr _ (List.getElem?_mem hins) _ hx) h

theorem Func.Foldable.mono {f : Func} (h : f.Foldable T p) (hpq : p.Le q) : f.Foldable T q :=
  fun x hx => let ⟨ins, hins, hi⟩ := h x hx; ⟨ins, hins, Ins.foldable_of_le hpq hi⟩

/-- A function whose edges and entry are in range, and whose instructions are all `Foldable`,
is `Foldable`. -/
theorem Func.foldable_of_forall {f : Func} (hr : f.InRange T) (he : f.entry < f.code.length)
    (h : ∀ i ∈ f.code, i.Foldable T p) : f.Foldable T p := fun x hx =>
  have hlt := Func.Reach.lt_length hr he hx
  ⟨f.code[x], List.getElem?_eq_getElem hlt, h _ (List.getElem_mem hlt)⟩

section
variable {debug : Bool} {f g : Func} (ha : f.Acyclic T)
include ha

/-- Every edge of the function `Fold::run` returns is in range. -/
theorem Fold.run_inRange_edges (h : Fold.run T debug p f = .ok (s, g)) : g.InRange T := by
  intro ins hins x hx
  obtain ⟨k, hk⟩ := List.getElem?_of_mem hins
  rcases List.mem_append.mp hx with hx | hx
  · exact (Fold.run_topo ha h k (List.getElem?_eq_some_iff.mp hk).1 x
      (by rwa [(List.getElem?_eq_some_iff.mp hk).2])).trans (List.getElem?_eq_some_iff.mp hk).1
  · exact (Fold.run_inRange ha h).1 ins hins x hx

/-- What `Fold::run` returns from a `Foldable` acyclic function is `Foldable` at the pool it
leaves, which extends the pool it started from. -/
theorem Fold.run_foldable (hf : f.Foldable T p) (h : Fold.run T debug p f = .ok (s, g)) :
    p.Le s.intern ∧ g.Foldable T s.intern := by
  obtain ⟨hb, -, -⟩ := Fold.run_ok h
  have hs := (Fcx.Safe.init p f).bfs ha hf (Fcx.Closed.init p f) hb
  obtain ⟨-, -, -, hrel, -⟩ := Fold.run_spec ha h
  refine ⟨hs.pool, Func.foldable_of_forall (Fold.run_inRange_edges ha h) (Fold.run_inRange ha h).2
    fun i' hi' => ?_⟩
  -- `fixup` keeps what makes an instruction `Foldable`
  obtain ⟨k, hk⟩ := List.getElem?_of_mem hi'
  obtain ⟨i, hi, hfix⟩ := hrel k i' hk
  rw [hfix.foldable]
  exact hs.code i (List.getElem?_mem hi)

end

end Fhk5
