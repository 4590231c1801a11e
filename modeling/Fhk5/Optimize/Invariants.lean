import Fhk5.Optimize
import Fhk5.Fold.Panic
import Fhk5.Fold.Typed

/-!
# What the driver keeps over whole runs

The loop of `Stage::run` runs `optimize` at least once, and the IR it returns is what its
last `optimize` returned.  With flags `{FOLD}` each function of that IR is what `Fold::run`
returned for it, so a property that `Fold::run` gives its results, from functions with a
property it keeps, holds of every function the driver returns (`iterate_foldOnly_of_run`).

*Panics.*  With flags `{FOLD}`, a release build of the driver returns on every IR whose
functions are acyclic and whose reachable instructions the fold takes without panicking
(`Optimize.run_foldOnly_release_ok`).

*Shape.*  With flags `{FOLD}`, every function the driver returns is canonical: in order,
with its edges in range, a normal form of every rule of `fold`, and without two equal
`is_cse` instructions (`Optimize.run_foldOnly_canon`).

*Types.*  With flags `{FOLD}`, the driver returns typed code from well-typed functions
(`Optimize.run_foldOnly_typed`).

*Meaning.*  An invariant and a preorder that every pass keeps, `optimize` keeps, and so
does the loop (`iterate_preserves`).  With flags `{FOLD}` each pass is a `Fold::run`, which
simulates the function it folds, so the driver keeps the meaning of every function
(`Optimize.run_foldOnly_simulates`).  Whatever the flags, the driver keeps the values of the
entries when the passes other than `Fold` keep them (`Optimize.run_refines`).
-/

namespace Fhk5

variable {T : OpTable} {debug : Bool} {P : Passes}

/-! ## Release builds under `FOLD`

A release build of `Fold::run` returns on an acyclic `Foldable` function, and gives back an
acyclic function `Foldable` at the grown pool (`Fold/Panic.lean`).  The pool only grows, so
the other functions stay `Foldable`, and with flags `{FOLD}` a release build of the driver
returns on such an IR. -/

/-- The IRs a release build of the fold takes without panicking: every function is acyclic
and `Foldable` at the pool. -/
def Ocx.FoldSafe (T : OpTable) (o : Ocx) : Prop :=
  ∀ f ∈ o.funcs, f.Acyclic T ∧ f.Foldable T o.intern

/-- A release `Fold::run` of a function of a `FoldSafe` IR returns, and leaves a `FoldSafe`
IR with as many functions. -/
theorem Fold.pass_release_ok {o : Ocx} {fid : Nat} (h : o.FoldSafe T)
    (hfid : fid < o.funcs.length) :
    ∃ o', Fold.pass T false o fid = .ok o' ∧ o'.funcs.length = o.funcs.length ∧ o'.FoldSafe T := by
  obtain ⟨f, hf⟩ : ∃ f, o.funcs[fid]? = some f := ⟨_, List.getElem?_eq_getElem hfid⟩
  obtain ⟨haf, hff⟩ := h f (List.getElem?_mem hf)
  obtain ⟨s, hb⟩ := bfs_init_release haf hff
  obtain ⟨g, hr⟩ := Fold.run_of_bfs haf hb
  obtain ⟨hp, hg⟩ := Fold.run_foldable haf hff hr
  refine ⟨⟨s.intern, o.funcs.set fid g⟩, by simp [Fold.pass, hf, hr], by simp, fun f' hf' => ?_⟩
  rcases List.mem_or_eq_of_mem_set hf' with hf' | rfl
  · exact ⟨(h f' hf').1, (h f' hf').2.mono hp⟩
  · exact ⟨Func.Topo.acyclic T (Fold.run_topo haf hr), hg⟩

theorem optimize_foldOnly_release_ok {o : Ocx} (h : o.FoldSafe T) :
    ∃ o', optimize T false P OptFlag.FOLD.only o = .ok o' ∧ o'.FoldSafe T := by
  rw [optimize_foldOnly_eq]
  obtain ⟨o', h', -, hs⟩ := foldlM_ok (fun b : Ocx => b.funcs.length = o.funcs.length ∧ b.FoldSafe T)
    (fun b fid hfid hb => by
      obtain ⟨b', hb', hlen, hs⟩ := Fold.pass_release_ok hb.2
        (show fid < b.funcs.length by rw [hb.1]; exact List.mem_range.mp hfid)
      exact ⟨b', hb', hlen.trans hb.1, hs⟩) ⟨rfl, h⟩
  exact ⟨o', h', hs⟩

theorem iterate_foldOnly_release_ok :
    ∀ {n size : Nat} {o : Ocx}, o.FoldSafe T →
      ∃ r, Optimize.iterate T false P OptFlag.FOLD.only n size o = .ok r
  | 0, _, o, _ => ⟨(o, none), rfl⟩
  | n + 1, size, o, h => by
    obtain ⟨o₁, h₁, hs₁⟩ := optimize_foldOnly_release_ok (P := P) h
    unfold Optimize.iterate
    rw [h₁]
    dsimp only
    split
    · exact ⟨_, rfl⟩
    · exact iterate_foldOnly_release_ok hs₁

/-- With flags `{FOLD}`, a release build of `Stage::run` of `Optimize` returns on every IR
whose functions are acyclic and `Foldable` at the pool: it neither panics nor runs out. -/
theorem Optimize.run_foldOnly_release_ok {o : Ocx} (h : o.FoldSafe T) :
    ∃ r, Optimize.run T false P OptFlag.FOLD.only o = .ok r :=
  iterate_foldOnly_release_ok h

theorem Optimize.run_foldOnly_release_ok_sample :
    Ocx.sample.FoldSafe OpTable.sample ∧
      ∃ r, Optimize.run OpTable.sample false Passes.skip OptFlag.FOLD.only Ocx.sample = .ok r := by
  have h : Ocx.sample.FoldSafe OpTable.sample := by
    simp only [Ocx.FoldSafe, Ocx.sample, List.mem_singleton, forall_eq]
    exact ⟨Func.Topo.acyclic _ (by decide),
      Func.foldable_of_forall (by decide) (by decide) (by decide)⟩
  exact ⟨h, Optimize.run_foldOnly_release_ok h⟩

/-! ## Shape and types under `FOLD` -/

section
variable (Inv Out : Func → Prop)
  (hrun : ∀ {f g : Func} {p : Intern} {s : Fcx}, Inv f → Fold.run T debug p f = .ok (s, g) →
    Inv g ∧ Out g)
include hrun

/-- One iteration of the loop with flags `{FOLD}` from an IR whose functions have a property
`Fold::run` keeps: every function `optimize` returns has it, and a property `Fold::run` gives
its results, and the loop stops there or goes on from there. -/
theorem iterate_foldOnly_step {n size : Nat} {o o' : Ocx} {c : Option Nat} (h : ∀ f ∈ o.funcs, Inv f)
    (hi : Optimize.iterate T debug P OptFlag.FOLD.only (n + 1) size o = .ok (o', c)) :
    ∃ o₁, (∀ f ∈ o₁.funcs, Inv f ∧ Out f) ∧
      (o' = o₁ ∨ Optimize.iterate T debug P OptFlag.FOLD.only n (irsize o₁) o₁ = .ok (o', c)) := by
  unfold Optimize.iterate at hi
  split at hi
  · cases hi
  rename_i o₁ h₁
  refine ⟨o₁, fun f hf => ?_, ?_⟩
  · obtain ⟨f₀, hf₀, p, s, hr⟩ := optimize_foldOnly_mem h₁ hf
    exact hrun (h f₀ hf₀) hr
  split at hi
  · cases hi; exact .inl rfl
  · exact .inr hi

/-- A property that `Fold::run` gives every function it returns, from a function with a
property it keeps, holds of every function the loop returns: the loop runs `optimize` at
least once, and each function it returns is what `Fold::run` returned last for it. -/
theorem iterate_foldOnly_of_run :
    ∀ {n size : Nat} {o o' : Ocx} {c : Option Nat}, (∀ f ∈ o.funcs, Inv f) →
      Optimize.iterate T debug P OptFlag.FOLD.only (n + 1) size o = .ok (o', c) →
      ∀ f ∈ o'.funcs, Out f
  | 0, _, _, _, _, h, hi => by
    obtain ⟨o₁, h₁, rfl | hi⟩ := iterate_foldOnly_step Inv Out hrun h hi
    · exact fun f hf => (h₁ f hf).2
    · cases hi; exact fun f hf => (h₁ f hf).2
  | n + 1, _, _, _, _, h, hi => by
    obtain ⟨o₁, h₁, rfl | hi⟩ := iterate_foldOnly_step Inv Out hrun h hi
    · exact fun f hf => (h₁ f hf).2
    · exact iterate_foldOnly_of_run (fun f hf => (h₁ f hf).1) hi

end

/-- With flags `{FOLD}`, every function `Stage::run` of `Optimize` returns from an IR of
acyclic functions is canonical: its operands come before their users, its control
successors and entry are in range, no rule of `fold` applies to any of its instructions, and
equal `is_cse` instructions without control slots sit at one index. -/
theorem Optimize.run_foldOnly_canon {o o' : Ocx} {c : Option Nat} (ha : ∀ f ∈ o.funcs, f.Acyclic T)
    (h : Optimize.run T debug P OptFlag.FOLD.only o = .ok (o', c)) : ∀ f ∈ o'.funcs, f.Canon T :=
  iterate_foldOnly_of_run (Func.Acyclic T) (Func.Canon T)
    (fun ha hr => ⟨Func.Topo.acyclic T (Fold.run_topo ha hr), Fold.run_canon ha hr⟩) ha h

theorem Optimize.run_foldOnly_canon_sample :
    (∀ f ∈ Ocx.sample.funcs, f.Acyclic OpTable.sample) ∧
      ∃ r, Optimize.run OpTable.sample false Passes.skip OptFlag.FOLD.only Ocx.sample = .ok r ∧
        ∀ f ∈ r.1.funcs, f.Canon OpTable.sample := by
  have ha : ∀ f ∈ Ocx.sample.funcs, f.Acyclic OpTable.sample := by
    simp only [Ocx.sample, List.mem_singleton, forall_eq]
    exact Func.Topo.acyclic _ (by decide)
  exact ⟨ha, _, rfl, @Optimize.run_foldOnly_canon _ false Passes.skip _ _ _ ha rfl⟩

/-- With flags `{FOLD}`, `Stage::run` of `Optimize` keeps types: from an IR of acyclic,
well-typed functions it returns functions every instruction of which is typed in its code. -/
theorem Optimize.run_foldOnly_typed {o o' : Ocx} {c : Option Nat}
    (h : ∀ f ∈ o.funcs, f.Acyclic T ∧ f.WellTyped T)
    (hr : Optimize.run T debug P OptFlag.FOLD.only o = .ok (o', c)) :
    ∀ f ∈ o'.funcs, ∀ i ∈ f.code, i.Typed T f.code :=
  iterate_foldOnly_of_run (fun f => f.Acyclic T ∧ f.WellTyped T) (fun f => ∀ i ∈ f.code, i.Typed T f.code)
    (fun hf hr =>
      have hc := Fold.run_code_typed hf.1 hf.2 hr
      ⟨⟨Func.Topo.acyclic T (Fold.run_topo hf.1 hr), Func.wellTyped_of_forall hc⟩, hc⟩) h hr

theorem Optimize.run_foldOnly_typed_sample :
    (∀ f ∈ Ocx.sample.funcs, f.Acyclic OpTable.sample ∧ f.WellTyped OpTable.sample) ∧
      ∃ r, Optimize.run OpTable.sample false Passes.skip OptFlag.FOLD.only Ocx.sample = .ok r ∧
        ∀ f ∈ r.1.funcs, ∀ i ∈ f.code, i.Typed OpTable.sample f.code := by
  have h : ∀ f ∈ Ocx.sample.funcs, f.Acyclic OpTable.sample ∧ f.WellTyped OpTable.sample := by
    simp only [Ocx.sample, List.mem_singleton, forall_eq]
    exact ⟨Func.Topo.acyclic _ (by decide), Func.wellTyped_of_forall (by decide)⟩
  exact ⟨h, _, rfl, @Optimize.run_foldOnly_typed _ false Passes.skip _ _ _ h rfl⟩

/-! ## Meaning

`optimize` runs the enabled passes in a fixed order, and `Stage::run` repeats it.  So an
invariant of the IR that every pass keeps, along a preorder that relates what each pass
returns to what it was given, `optimize` keeps (`optimize_preserves`), and so does the whole
loop however it stops (`iterate_preserves`).  The passes other than `Fold` are parameters, so
what they keep is an assumption (`Passes.Preserve`).

With flags `{FOLD}` only `Fold` runs, and it simulates the IR (`Fold.pass_simulates`), so
the driver keeps the meaning of every function (`Optimize.run_foldOnly_simulates`).  Whatever
the flags, `Fold` keeps the values of the entries (`Fold.pass_refines`), so the driver does
when the other passes do (`Optimize.run_refines`). -/

/-- A pass run on an IR with `Inv` returns one with `Inv`, related to it by `R`. -/
def Preserves (R : Ocx → Ocx → Prop) (Inv : Ocx → Prop) (pass : Ocx → Except Halt Ocx) : Prop :=
  ∀ ⦃o o' : Ocx⦄, Inv o → pass o = .ok o' → R o o' ∧ Inv o'

/-- Each pass of `P` preserves `Inv` along `R`, on every function for the per-function ones. -/
structure Passes.Preserve (P : Passes) (R : Ocx → Ocx → Prop) (Inv : Ocx → Prop) : Prop where
  inline : Preserves R Inv P.inline
  switch : ∀ fid, Preserves R Inv (P.switch · fid)
  loop : ∀ fid, Preserves R Inv (P.loop · fid)
  phi : ∀ fid, Preserves R Inv (P.phi · fid)
  goto : ∀ fid, Preserves R Inv (P.goto · fid)

section
variable {R : Ocx → Ocx → Prop} {Inv : Ocx → Prop} (hrefl : ∀ o, R o o)
  (htrans : ∀ ⦃o₁ o₂ o₃⦄, R o₁ o₂ → R o₂ o₃ → R o₁ o₃)
  (hfold : ∀ fid, Preserves R Inv (Fold.pass T debug · fid)) (hP : P.Preserve R Inv)

include hrefl in
/-- A pass run only when its flag is set. -/
theorem Preserves.ite (b : Bool) {pass : Ocx → Except Halt Ocx} (h : Preserves R Inv pass) :
    Preserves R Inv fun o => if b then pass o else pure o := by
  intro o o' ho he
  cases b
  · cases he; exact ⟨hrefl o, ho⟩
  · exact h ho he

include htrans in
/-- One pass after another. -/
theorem Preserves.bind {f g : Ocx → Except Halt Ocx} (hf : Preserves R Inv f)
    (hg : Preserves R Inv g) : Preserves R Inv fun o => f o >>= g := by
  intro o o' ho he
  obtain ⟨o₁, h₁, h₂⟩ := bind_eq_ok.mp he
  obtain ⟨r₁, i₁⟩ := hf ho h₁
  exact (hg i₁ h₂).imp_left (htrans r₁)

include htrans in
/-- A pass run only when its flag is set, then the rest of a `do` block, which Lean places
after both branches. -/
theorem Preserves.ite_bind (b : Bool) {pass k : Ocx → Except Halt Ocx} (h : Preserves R Inv pass)
    (hk : Preserves R Inv k) : Preserves R Inv fun o => if b then pass o >>= k else pure o >>= k := by
  intro o o' ho he
  cases b
  · exact hk ho he
  · exact h.bind htrans hk ho he

include hrefl htrans hfold hP in
theorem optimizeFunc_preserves (flags : BitVec 6) (fid : Nat) :
    Preserves R Inv (optimizeFunc T debug P flags · fid) := by
  unfold optimizeFunc
  exact (hfold fid).ite_bind htrans _ <| (hP.switch fid).ite_bind htrans _ <|
    (hP.loop fid).ite_bind htrans _ <| (hP.phi fid).ite_bind htrans _ <|
      (hP.goto fid).ite hrefl _

include hrefl htrans hfold hP in
/-- `optimize`: `Inline`, then the passes of each function in turn. -/
theorem optimize_preserves (flags : BitVec 6) : Preserves R Inv (optimize T debug P flags) := by
  have hloop : Preserves R Inv fun o =>
      (List.range o.funcs.length).foldlM (optimizeFunc T debug P flags) o :=
    fun o _ ho he => foldlM_induct (fun b => R o b ∧ Inv b)
      (fun _ fid _ ⟨r, i⟩ hs =>
        (optimizeFunc_preserves hrefl htrans hfold hP flags fid i hs).imp_left (htrans r))
      ⟨hrefl o, ho⟩ he
  unfold optimize
  exact hP.inline.ite_bind htrans _ hloop

include hrefl htrans hfold in
/-- With flags `{FOLD}`, `optimize` runs `Fold::run` on each function in turn, whatever the
other passes. -/
theorem optimize_foldOnly_preserves : Preserves R Inv (optimize T debug P OptFlag.FOLD.only) :=
  fun o _ ho he => by
    rw [optimize_foldOnly_eq] at he
    exact foldlM_induct (fun b => R o b ∧ Inv b)
      (fun _ fid _ ⟨r, i⟩ hs => (hfold fid i hs).imp_left (htrans r)) ⟨hrefl o, ho⟩ he

include hrefl htrans in
/-- The loop of `Stage::run`, however it stops, when `optimize` preserves the invariant. -/
theorem iterate_preserves {flags : BitVec 6} (hopt : Preserves R Inv (optimize T debug P flags)) :
    ∀ {n size : Nat} {o o' : Ocx} {c : Option Nat}, Inv o →
      Optimize.iterate T debug P flags n size o = .ok (o', c) → R o o' ∧ Inv o'
  | 0, _, o, _, _, ho, h => by cases h; exact ⟨hrefl o, ho⟩
  | n + 1, size, o, o', c, ho, h => by
    unfold Optimize.iterate at h
    split at h
    · cases h
    rename_i o₁ h₁
    obtain ⟨r₁, i₁⟩ := hopt ho h₁
    split at h
    · cases h; exact ⟨r₁, i₁⟩
    · exact (iterate_preserves hopt i₁ h).imp_left (htrans r₁)

end

/-- With flags `{FOLD}`, `Stage::run` of `Optimize` keeps the meaning of every function of an
IR ready for the fold, whatever iteration the loop stops at: the IR it returns has as many
functions and a larger pool, and each function simulates the function at its index.  From
the entry on, it meets the control instructions the old function meets, with their opcodes,
types and immediates, and the values of their inputs. -/
theorem Optimize.run_foldOnly_simulates (F : Ins → List (BitVec 64) → BitVec 64) {o o' : Ocx}
    {c : Option Nat} (hw : o.FoldReady T)
    (h : Optimize.run T debug P OptFlag.FOLD.only o = .ok (o', c)) : o.Simulates T F o' :=
  have htrans : ∀ ⦃o₁ o₂ o₃ : Ocx⦄, o₁.Simulates T F o₂ → o₂.Simulates T F o₃ →
      o₁.Simulates T F o₃ := fun _ _ _ h₁ h₂ => h₁.trans h₂
  (iterate_preserves Ocx.Simulates.refl htrans
    (optimize_foldOnly_preserves Ocx.Simulates.refl htrans fun _ _ _ => Fold.pass_simulates) hw h).1

theorem Optimize.run_foldOnly_simulates_sample :
    Ocx.sample.FoldReady OpTable.sample ∧ ∃ o' c,
      Optimize.run OpTable.sample false Passes.skip OptFlag.FOLD.only Ocx.sample = .ok (o', c) ∧
      Ocx.sample.Simulates OpTable.sample (fun _ _ => 0) o' := by
  have hw : Ocx.sample.FoldReady OpTable.sample := by
    simp only [Ocx.FoldReady, Ocx.sample, List.mem_singleton, forall_eq]
    exact ⟨Func.Topo.acyclic _ (by decide), by decide⟩
  exact ⟨hw, _, _, rfl,
    @Optimize.run_foldOnly_simulates _ false Passes.skip (fun _ _ => 0) _ _ _ hw rfl⟩

/-- Passes that leave the IR as it is preserve every invariant along every reflexive
relation. -/
theorem Passes.skip_preserve {R : Ocx → Ocx → Prop} {Inv : Ocx → Prop} (hrefl : ∀ o, R o o) :
    Passes.skip.Preserve R Inv :=
  have h : Preserves R Inv .ok := fun _ _ ho he => by cases he; exact ⟨hrefl _, ho⟩
  ⟨h, fun _ => h, fun _ => h, fun _ => h, fun _ => h⟩

/-- Whatever the flags, `Stage::run` of `Optimize` keeps the values of the entry of every
function of an IR ready for the fold, when the passes other than `Fold` keep them and keep
the IR ready for the fold.  `Ocx.Refines` compares the values of the entries only, not the
rest of the functions. -/
theorem Optimize.run_refines (F : Ins → List (BitVec 64) → BitVec 64) {flags : BitVec 6}
    {o o' : Ocx} {c : Option Nat} (hP : P.Preserve (Ocx.Refines T F) (Ocx.FoldReady T))
    (hw : o.FoldReady T) (h : Optimize.run T debug P flags o = .ok (o', c)) : o.Refines T F o' :=
  have htrans : ∀ ⦃o₁ o₂ o₃ : Ocx⦄, o₁.Refines T F o₂ → o₂.Refines T F o₃ →
      o₁.Refines T F o₃ := fun _ _ _ h₁ h₂ => h₁.trans h₂
  (iterate_preserves Ocx.Refines.refl htrans
    (optimize_preserves Ocx.Refines.refl htrans (fun _ _ _ => Fold.pass_refines) hP flags) hw h).1

theorem Optimize.run_refines_sample :
    Passes.skip.Preserve (Ocx.Refines OpTable.sample fun _ _ => 0) (Ocx.FoldReady OpTable.sample) ∧
      Ocx.sample.FoldReady OpTable.sample ∧ ∃ o' c,
      Optimize.run OpTable.sample false Passes.skip (BitVec.allOnes 6) Ocx.sample = .ok (o', c) ∧
      Ocx.sample.Refines OpTable.sample (fun _ _ => 0) o' := by
  have hP : Passes.skip.Preserve (Ocx.Refines OpTable.sample fun _ _ => 0)
      (Ocx.FoldReady OpTable.sample) := Passes.skip_preserve Ocx.Refines.refl
  have hw : Ocx.sample.FoldReady OpTable.sample := by
    simp only [Ocx.FoldReady, Ocx.sample, List.mem_singleton, forall_eq]
    exact ⟨Func.Topo.acyclic _ (by decide), by decide⟩
  exact ⟨hP, hw, _, _, rfl, Optimize.run_refines (fun _ _ => 0) hP hw
    (rfl : Optimize.run OpTable.sample false Passes.skip (BitVec.allOnes 6) Ocx.sample = _)⟩

end Fhk5
