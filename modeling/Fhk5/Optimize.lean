import Mathlib.Algebra.Order.Ring.Nat
import Fhk5.Fold.Simulation

/-!
# The optimizer driver

`optimize` runs the enabled passes once over the IR: `Inline` over the whole IR, then, for
each function, `Fold`, `OptSwitch`, `OptLoop`, `OptPhi` and `OptGoto`, in that order.
`Stage::run` of `Optimize` repeats `optimize` until `irsize` does not change, at most
`MAX_ITER` times.  `parse_optflags` reads the flag string of the command line; a flag is in
its result when some byte selects it, complemented after a leading `-` (`parseOptflags_spec`).

Only `Fold` is among the sources, so the other passes are parameters (`Passes`).  The IR is
the constant pool and the functions; `irsize` counts the instructions of every function,
and 37 per function.  An `EnumSet<OptFlag>` is its bits, in the order of the variants.
The traces and the IR dump of the loop change nothing and are left out.

*Size.*  With only `FOLD`, each `Fold::run` keeps at most one instruction per visited id,
so `irsize` never grows, and the functions stay acyclic (`optimize_foldOnly`).  It can
shrink after the loop has stopped: the loop stops when one iteration leaves the size
unchanged, but a `Fold::run` that leaves the size unchanged can leave dead constants
behind, which the next one drops (`Optimize.run_stops_early`).  Over the whole loop, every
iteration before the last makes the IR smaller (`Optimize.run_foldOnly_descent`).

*Meaning.*  Each `Fold::run` of the driver is a simulation of the function it folds
(`Fold.pass_simulates`): from the entry on, the new function meets the control instructions
of the old one with the values of their inputs kept.  Simulations compose, so the loop keeps
the meaning of every function (`Optimize/Invariants.lean`).

*Builds.*  Whatever the flags, a debug build of the driver either panics or returns what a
release build returns (`Optimize.run_release_of_debug`).

*Fuel.*  With flags `{FOLD}`, on acyclic functions, the driver never runs out of the fuel
the model gives the loops of `Fold::run` (`Optimize.run_foldOnly_ne_fuel`).

Where the driver panics, the shape and types of what it returns, and what it keeps under any
flags, are in `Optimize/Invariants.lean`.
-/

namespace Fhk5

/-! ## Flags -/

/-- `OptFlag`. -/
inductive OptFlag where
  | FOLD | GOTO | INLINE | LOOP | PHI | SWITCH
deriving DecidableEq, Repr

/-- The bit of a flag in an `EnumSet<OptFlag>`: its discriminant. -/
def OptFlag.bit : OptFlag → Nat
  | .FOLD => 0 | .GOTO => 1 | .INLINE => 2 | .LOOP => 3 | .PHI => 4 | .SWITCH => 5

/-- `EnumSet::contains`. -/
def OptFlag.mem (flag : OptFlag) (flags : BitVec 6) : Bool := flags.getLsbD flag.bit

/-- `flag.into()`: the set of one flag. -/
def OptFlag.only (flag : OptFlag) : BitVec 6 := 1 <<< flag.bit

/-- The flags a byte of the flag string names: `a` names all, and an unknown byte none. -/
def optflagsOf (f : UInt8) : BitVec 6 :=
  if f = 'f'.toUInt8 then OptFlag.FOLD.only
  else if f = 'g'.toUInt8 then OptFlag.GOTO.only
  else if f = 'i'.toUInt8 then OptFlag.INLINE.only
  else if f = 'l'.toUInt8 then OptFlag.LOOP.only
  else if f = 'p'.toUInt8 then OptFlag.PHI.only
  else if f = 's'.toUInt8 then OptFlag.SWITCH.only
  else if f = 'a'.toUInt8 then BitVec.allOnes 6
  else 0

/-- `parse_optflags`: the union of the flags the bytes name, complemented when the string
starts with `-`. -/
def parseOptflags (flags : List UInt8) : BitVec 6 :=
  let oflg := flags.foldl (fun oflg f => oflg ||| optflagsOf f) 0
  if flags.head? = some '-'.toUInt8 then ~~~oflg else oflg

/-! ## What `parse_optflags` selects

A byte selects its own flag, or all of them for `a`, and a leading `-` complements the union.
So a flag is in the result exactly when some byte selects it and the string does not start
with `-`, or no byte does and it does.  Six bits hold the six flags (`OptFlag.ext`), so this
determines the result (`parseOptflags_spec`). -/

/-- The letter that selects a flag, as the contract of flag parsing lists them. -/
def OptFlag.letter : OptFlag → UInt8
  | .FOLD => 'f'.toUInt8 | .GOTO => 'g'.toUInt8 | .INLINE => 'i'.toUInt8
  | .LOOP => 'l'.toUInt8 | .PHI => 'p'.toUInt8 | .SWITCH => 's'.toUInt8

theorem OptFlag.bit_lt (flag : OptFlag) : flag.bit < 6 := by cases flag <;> decide

@[simp] theorem OptFlag.mem_or (flag : OptFlag) (x y : BitVec 6) :
    flag.mem (x ||| y) = (flag.mem x || flag.mem y) := BitVec.getLsbD_or ..

@[simp] theorem OptFlag.mem_not (flag : OptFlag) (x : BitVec 6) : flag.mem (~~~x) = !flag.mem x := by
  simp [OptFlag.mem, flag.bit_lt]

/-- Two sets of flags with the same members are equal. -/
theorem OptFlag.ext {x y : BitVec 6} (h : ∀ flag : OptFlag, flag.mem x = flag.mem y) : x = y :=
  BitVec.eq_of_getLsbD_eq fun ⟨i, hi⟩ => by
    rcases i with _ | _ | _ | _ | _ | _ | i
    exacts [h .FOLD, h .GOTO, h .INLINE, h .LOOP, h .PHI, h .SWITCH, absurd hi (by omega)]

/-- One byte: its letter or `a`. -/
theorem OptFlag.mem_optflagsOf (flag : OptFlag) (b : UInt8) :
    flag.mem (optflagsOf b) = (b == flag.letter || b == 'a'.toUInt8) := by
  by_cases h : b ∈ ['f', 'g', 'i', 'l', 'p', 's', 'a'].map Char.toUInt8
  · simp only [List.map_cons, List.map_nil, List.mem_cons, List.not_mem_nil, or_false] at h
    rcases h with rfl | rfl | rfl | rfl | rfl | rfl | rfl <;> cases flag <;> decide
  -- an unknown byte selects nothing
  simp only [List.map_cons, List.map_nil, List.mem_cons, List.not_mem_nil, or_false, not_or] at h
  obtain ⟨hf, hg, hi, hl, hp, hs, ha⟩ := h
  rw [optflagsOf, if_neg hf, if_neg hg, if_neg hi, if_neg hl, if_neg hp, if_neg hs, if_neg ha]
  cases flag <;> simp [OptFlag.mem, OptFlag.letter, *]

/-- The loop over the bytes: the union of what each selects. -/
theorem OptFlag.mem_foldl_optflagsOf (flag : OptFlag) (l : List UInt8) (acc : BitVec 6) :
    flag.mem (l.foldl (fun oflg f => oflg ||| optflagsOf f) acc) =
      (flag.mem acc || l.any fun b => b == flag.letter || b == 'a'.toUInt8) := by
  induction l generalizing acc with
  | nil => simp
  | cons b l ih => simp [ih, flag.mem_optflagsOf, Bool.or_assoc]

theorem OptFlag.mem_parseOptflags (flag : OptFlag) (flags : List UInt8) :
    flag.mem (parseOptflags flags) ↔
      ((∃ b ∈ flags, b = flag.letter ∨ b = 'a'.toUInt8) ↔ flags.head? ≠ some '-'.toUInt8) := by
  have hsel := flag.mem_foldl_optflagsOf flags 0
  rw [show flag.mem 0 = false from BitVec.getLsbD_zero, Bool.false_or] at hsel
  unfold parseOptflags
  split <;> simp_all

/-- `parse_optflags` returns the set of the flags that some byte selects when the string does
not start with `-`, and of those that no byte selects when it does. -/
theorem parseOptflags_spec (flags : List UInt8) (x : BitVec 6) :
    parseOptflags flags = x ↔ ∀ flag : OptFlag, flag.mem x ↔
      ((∃ b ∈ flags, b = flag.letter ∨ b = 'a'.toUInt8) ↔ flags.head? ≠ some '-'.toUInt8) := by
  refine ⟨by rintro rfl; exact fun flag => flag.mem_parseOptflags flags, fun h => ?_⟩
  exact OptFlag.ext fun flag => Bool.eq_iff_iff.mpr ((flag.mem_parseOptflags flags).trans (h flag).symm)

example : parseOptflags ['-'.toUInt8, 'l'.toUInt8] = ~~~OptFlag.LOOP.only := by decide

example : parseOptflags ['-'.toUInt8] = BitVec.allOnes 6 := by decide

/-! ## The driver -/

/-- The part of the IR the driver reads and the fold writes: the constant pool and the
functions. -/
structure Ocx where
  /-- The constant pool. -/
  intern : Intern
  /-- `ir.funcs`. -/
  funcs : List Func

/-- The passes whose sources are not given. -/
structure Passes where
  /-- `Inline::run`, over the whole IR. -/
  inline : Ocx → Except Halt Ocx
  /-- `OptSwitch::run` of a function. -/
  switch : Ocx → Nat → Except Halt Ocx
  /-- `OptLoop::run` of a function. -/
  loop : Ocx → Nat → Except Halt Ocx
  /-- `OptPhi::run` of a function. -/
  phi : Ocx → Nat → Except Halt Ocx
  /-- `OptGoto::run` of a function. -/
  goto : Ocx → Nat → Except Halt Ocx

/-- `irsize`. -/
def irsize (o : Ocx) : Nat := (o.funcs.map fun f => f.code.length).sum + 37 * o.funcs.length

variable (T : OpTable) (debug : Bool) (P : Passes)

/-- `Fold::run` of the function `fid`: the function is replaced by the new one, and the
pool keeps what the fold interned. -/
def Fold.pass (o : Ocx) (fid : Nat) : Except Halt Ocx :=
  match o.funcs[fid]? with
  | none => .error .panic
  | some f =>
    match Fold.run T debug o.intern f with
    | .error e => .error e
    | .ok (s, g) => .ok ⟨s.intern, o.funcs.set fid g⟩

/-- The body of the loop over the functions in `optimize`. -/
def optimizeFunc (flags : BitVec 6) (o : Ocx) (fid : Nat) : Except Halt Ocx := do
  let o ← if OptFlag.FOLD.mem flags then Fold.pass T debug o fid else pure o
  let o ← if OptFlag.SWITCH.mem flags then P.switch o fid else pure o
  let o ← if OptFlag.LOOP.mem flags then P.loop o fid else pure o
  let o ← if OptFlag.PHI.mem flags then P.phi o fid else pure o
  if OptFlag.GOTO.mem flags then P.goto o fid else pure o

/-- `optimize`. -/
def optimize (flags : BitVec 6) (o : Ocx) : Except Halt Ocx := do
  let o ← if OptFlag.INLINE.mem flags then P.inline o else pure o
  (List.range o.funcs.length).foldlM (optimizeFunc T debug P flags) o

/-- `MAX_ITER`. -/
def maxIter : Nat := 100

/-- The loop of `Stage::run` with `n` iterations left and the size before them: the IR it
leaves, and the iteration it converged in, if it did. -/
def Optimize.iterate (flags : BitVec 6) : Nat → Nat → Ocx → Except Halt (Ocx × Option Nat)
  | 0, _, o => .ok (o, none)
  | n + 1, size, o =>
    match optimize T debug P flags o with
    | .error e => .error e
    | .ok o =>
      if size = irsize o then .ok (o, some (maxIter - n))
      else Optimize.iterate flags n (irsize o) o

/-- `Stage::run` of `Optimize`. -/
def Optimize.run (flags : BitVec 6) (o : Ocx) : Except Halt (Ocx × Option Nat) :=
  Optimize.iterate T debug P flags maxIter (irsize o) o

/-! ## Size under `FOLD` -/

variable {T debug P}

theorem sum_set_le {l : List Nat} {n a : Nat} (h : ∀ x, l[n]? = some x → a ≤ x) :
    (l.set n a).sum ≤ l.sum := by
  induction l generalizing n with
  | nil => rfl
  | cons x l ih =>
    cases n with
    | zero =>
      simpa only [List.set_cons_zero, List.sum_cons, Nat.add_le_add_iff_right] using
        h x List.getElem?_cons_zero
    | succ n =>
      simpa only [List.set_cons_succ, List.sum_cons, Nat.add_le_add_iff_left] using
        ih fun y hy => h y (by rwa [List.getElem?_cons_succ])

/-- What a successful `Fold::run` of one function in the driver does. -/
theorem Fold.pass_eq_ok {o o' : Ocx} {fid : Nat} (h : Fold.pass T debug o fid = .ok o') :
    ∃ f s g, o.funcs[fid]? = some f ∧ Fold.run T debug o.intern f = .ok (s, g) ∧
      o' = ⟨s.intern, o.funcs.set fid g⟩ := by
  unfold Fold.pass at h
  split at h
  · cases h
  rename_i f hf
  split at h
  · cases h
  rename_i s g hr
  cases h
  exact ⟨f, s, g, hf, hr, rfl⟩

/-- One `Fold::run` in the driver keeps the number of functions, does not make the IR
larger, and keeps the functions acyclic. -/
theorem Fold.pass_size {o o' : Ocx} {fid : Nat} (ha : ∀ f ∈ o.funcs, f.Acyclic T)
    (h : Fold.pass T debug o fid = .ok o') :
    o'.funcs.length = o.funcs.length ∧ irsize o' ≤ irsize o ∧ ∀ f ∈ o'.funcs, f.Acyclic T := by
  obtain ⟨f, s, g, hf, hr, rfl⟩ := Fold.pass_eq_ok h
  have haf := ha f (List.mem_iff_getElem?.mpr ⟨fid, hf⟩)
  have hle := Fold.run_length_le haf hr
  refine ⟨by simp, ?_, fun f' hf' => ?_⟩
  · simp only [irsize, List.map_set, List.length_set]
    have := sum_set_le (l := o.funcs.map fun f => f.code.length) (n := fid)
      (a := g.code.length) fun x hx => by
        simp only [List.getElem?_map, hf, Option.map_some', Option.some.injEq] at hx
        omega
    omega
  · rcases List.mem_or_eq_of_mem_set hf' with hf' | rfl
    exacts [ha f' hf', Func.Topo.acyclic T (Fold.run_topo haf hr)]

theorem optimizeFunc_foldOnly (o : Ocx) (fid : Nat) :
    optimizeFunc T debug P OptFlag.FOLD.only o fid = Fold.pass T debug o fid := by
  unfold optimizeFunc
  cases Fold.pass T debug o fid <;> rfl

/-- With flags `{FOLD}`, `optimize` is `Fold::run` of each function in turn. -/
theorem optimize_foldOnly_eq (o : Ocx) :
    optimize T debug P OptFlag.FOLD.only o =
      (List.range o.funcs.length).foldlM (Fold.pass T debug) o := by
  have : optimizeFunc T debug P OptFlag.FOLD.only = Fold.pass T debug :=
    funext fun o => funext (optimizeFunc_foldOnly o)
  rw [optimize, this]
  rfl

/-- With flags `{FOLD}`, `optimize` of an IR of acyclic functions does not make it larger,
and keeps its functions acyclic. -/
theorem optimize_foldOnly {o o' : Ocx} (ha : ∀ f ∈ o.funcs, f.Acyclic T)
    (h : optimize T debug P OptFlag.FOLD.only o = .ok o') :
    irsize o' ≤ irsize o ∧ ∀ f ∈ o'.funcs, f.Acyclic T := by
  rw [optimize_foldOnly_eq] at h
  exact foldlM_induct (fun o'' => irsize o'' ≤ irsize o ∧ ∀ f ∈ o''.funcs, f.Acyclic T)
    (fun _ _ _ hb hs => let ⟨_, hle, ha'⟩ := Fold.pass_size hb.2 hs; ⟨hle.trans hb.1, ha'⟩)
    ⟨le_refl _, ha⟩ h

/-- The loop with flags `{FOLD}` keeps the functions acyclic. -/
theorem iterate_foldOnly_acyclic :
    ∀ {n size : Nat} {o o' : Ocx} {c : Option Nat}, (∀ f ∈ o.funcs, f.Acyclic T) →
      Optimize.iterate T debug P OptFlag.FOLD.only n size o = .ok (o', c) →
      ∀ f ∈ o'.funcs, f.Acyclic T
  | 0, _, _, _, _, ha, h => by cases h; exact ha
  | n + 1, size, o, o', c, ha, h => by
    unfold Optimize.iterate at h
    split at h
    · cases h
    rename_i o₁ h₁
    have ha₁ := (optimize_foldOnly ha h₁).2
    split at h
    · cases h; exact ha₁
    · exact iterate_foldOnly_acyclic ha₁ h

/-- With flags `{FOLD}`, when `Stage::run` stops because an iteration left `irsize`
unchanged, one more `optimize` does not make the IR larger; it can make it smaller. -/
theorem Optimize.run_converged_size_le {o o' o'' : Ocx} {i : Nat}
    (ha : ∀ f ∈ o.funcs, f.Acyclic T)
    (hr : Optimize.run T debug P OptFlag.FOLD.only o = .ok (o', some i))
    (ho : optimize T debug P OptFlag.FOLD.only o' = .ok o'') : irsize o'' ≤ irsize o' :=
  (optimize_foldOnly (iterate_foldOnly_acyclic ha hr) ho).1

/-- The loop with flags `{FOLD}` and `n` of the `MAX_ITER` iterations left, started at the
size of the IR: each iteration that does not stop the loop makes the IR smaller, and the
one that stops it keeps the size. -/
theorem iterate_foldOnly_descent :
    ∀ {n : Nat} {o o' : Ocx} {c : Option Nat}, n ≤ maxIter → (∀ f ∈ o.funcs, f.Acyclic T) →
      Optimize.iterate T debug P OptFlag.FOLD.only n (irsize o) o = .ok (o', c) →
      (c = none → irsize o' + n ≤ irsize o) ∧
        ∀ i, c = some i → maxIter - n < i ∧ i ≤ maxIter ∧ irsize o' + i + n ≤ irsize o + maxIter + 1
  | 0, _, _, _, _, _, h => by cases h; simp
  | n + 1, o, o', c, hn, ha, h => by
    unfold Optimize.iterate at h
    split at h
    · cases h
    rename_i o₁ h₁
    obtain ⟨hle, ha₁⟩ := optimize_foldOnly ha h₁
    split at h
    · -- the iteration kept the size and stops the loop
      cases h
      refine ⟨by simp, fun i hi => ?_⟩
      cases hi
      omega
    · -- the iteration made the IR smaller
      obtain ⟨hnone, hsome⟩ := iterate_foldOnly_descent (by omega) ha₁ h
      exact ⟨fun hc => by have := hnone hc; omega, fun i hi => by have := hsome i hi; omega⟩

/-- With flags `{FOLD}`, on an IR of acyclic functions, `Stage::run` of `Optimize` never
makes the IR larger, and every iteration before the last makes it smaller.  If the loop
stops at iteration `i`, because that iteration kept `irsize`, then `irsize` fell by at least
`i - 1`; if it runs all `MAX_ITER` iterations without stopping, by at least `MAX_ITER`. -/
theorem Optimize.run_foldOnly_descent {o o' : Ocx} {c : Option Nat}
    (ha : ∀ f ∈ o.funcs, f.Acyclic T) (h : Optimize.run T debug P OptFlag.FOLD.only o = .ok (o', c)) :
    irsize o' ≤ irsize o ∧ (c = none → irsize o' + maxIter ≤ irsize o) ∧
      ∀ i, c = some i → 1 ≤ i ∧ i ≤ maxIter ∧ irsize o' + i ≤ irsize o + 1 := by
  obtain ⟨hnone, hsome⟩ := iterate_foldOnly_descent (le_refl _) ha h
  refine ⟨?_, hnone, fun i hi => by have := hsome i hi; omega⟩
  cases c with
  | none => have := hnone rfl; omega
  | some i => have := hsome i rfl; omega

/-- The IR of the function `2 + 3` returned, with an empty pool. -/
def Ocx.sample : Ocx := ⟨⟨[]⟩, [Func.sample]⟩

/-- Passes that leave the IR as it is. -/
def Passes.skip : Passes :=
  ⟨.ok, fun o _ => .ok o, fun o _ => .ok o, fun o _ => .ok o, fun o _ => .ok o⟩

theorem Optimize.run_converged_sample :
    (∀ f ∈ Ocx.sample.funcs, f.Acyclic OpTable.sample) ∧ ∃ o' o'',
      Optimize.run OpTable.sample false Passes.skip OptFlag.FOLD.only Ocx.sample =
        .ok (o', some 1) ∧
      optimize OpTable.sample false Passes.skip OptFlag.FOLD.only o' = .ok o'' ∧
      irsize o'' ≤ irsize o' := by
  have ha : ∀ f ∈ Ocx.sample.funcs, f.Acyclic OpTable.sample := by
    simp only [Ocx.sample, List.mem_singleton, forall_eq]
    exact Func.Topo.acyclic _ (by decide)
  exact ⟨ha, _, _, rfl, rfl, @Optimize.run_converged_size_le _ false Passes.skip _ _ _ _ ha rfl rfl⟩

/-- On the function `2 + 3` returned, with flags `{FOLD}`, `Stage::run` stops after one
iteration, which leaves `irsize` at 41: the fold keeps the constants `2` and `3`.  One more
`optimize` drops them, to 39. -/
theorem Optimize.run_stops_early :
    ∃ o' o'',
      Optimize.run OpTable.sample false Passes.skip OptFlag.FOLD.only Ocx.sample =
        .ok (o', some 1) ∧ irsize o' = 41 ∧
      optimize OpTable.sample false Passes.skip OptFlag.FOLD.only o' = .ok o'' ∧
      irsize o'' = 39 :=
  ⟨_, _, rfl, rfl, rfl, rfl⟩

theorem Optimize.run_foldOnly_descent_sample :
    (∀ f ∈ Ocx.sample.funcs, f.Acyclic OpTable.sample) ∧ ∃ o' c,
      Optimize.run OpTable.sample false Passes.skip OptFlag.FOLD.only Ocx.sample = .ok (o', c) ∧
      irsize o' ≤ irsize Ocx.sample ∧ (c = none → irsize o' + maxIter ≤ irsize Ocx.sample) ∧
      ∀ i, c = some i → 1 ≤ i ∧ i ≤ maxIter ∧ irsize o' + i ≤ irsize Ocx.sample + 1 := by
  have ha : ∀ f ∈ Ocx.sample.funcs, f.Acyclic OpTable.sample := by
    simp only [Ocx.sample, List.mem_singleton, forall_eq]
    exact Func.Topo.acyclic _ (by decide)
  exact ⟨ha, _, _, rfl, @Optimize.run_foldOnly_descent _ false Passes.skip _ _ _ ha rfl⟩

/-! ## Meaning under `FOLD`

`Ocx.Simulates` relates an IR to one the driver produced from it: the same number of
functions, a larger pool, and each function simulated by the function at its index
(`Func.Simulation`): from the entry on, the new function meets the control instructions of
the old one, and their inputs keep their values.  Each `Fold::run` of the driver simulates
(`Fold.pass_simulates`), and simulations compose, so the whole loop does
(`Optimize.run_foldOnly_simulates`).  `Ocx.Refines` compares only the values of the
entries; it follows from `Ocx.Simulates` (`Ocx.Simulates.refines`). -/

/-- The functions the fold is run on: acyclic, with no float-typed arithmetic. -/
def Ocx.FoldReady (T : OpTable) (o : Ocx) : Prop := ∀ f ∈ o.funcs, f.Acyclic T ∧ IntArith f.code

/-- `o'` has the functions of `o`, each keeping the values of its entry.  This says nothing
of the rest of a function: the value of a control entry is `F` of its immediates and
inputs, whatever its successors do. -/
def Ocx.Refines (T : OpTable) (F : Ins → List (BitVec 64) → BitVec 64) (o o' : Ocx) : Prop :=
  o'.funcs.length = o.funcs.length ∧ o.intern.Le o'.intern ∧
    ∀ (k : Nat) (f f' : Func) (v : BitVec 64), o.funcs[k]? = some f → o'.funcs[k]? = some f' →
      Value T F Opcode.isLiteral o.intern f.code f.entry v →
      Value T F Opcode.isLiteral o'.intern f'.code f'.entry v

/-- `o'` has the functions of `o`, each keeping the meaning of the function at its index: it
simulates it along some relation between their ids, with constants read from the pool of
each IR. -/
structure Ocx.Simulates (T : OpTable) (F : Ins → List (BitVec 64) → BitVec 64) (o o' : Ocx) :
    Prop where
  /-- As many functions. -/
  length : o'.funcs.length = o.funcs.length
  /-- The pool only grows. -/
  pool : o.intern.Le o'.intern
  /-- Each function is simulated by the function at its index. -/
  sim : ∀ (k : Nat) (f f' : Func), o.funcs[k]? = some f → o'.funcs[k]? = some f' →
    ∃ R, Func.Simulation T F o.intern o'.intern f f' R

section
variable {F : Ins → List (BitVec 64) → BitVec 64}

theorem Ocx.Refines.refl (o : Ocx) : o.Refines T F o :=
  ⟨rfl, Intern.Le.refl _, fun _ _ _ _ h₁ h₂ hv => Option.some.inj (h₁.symm.trans h₂) ▸ hv⟩

theorem Ocx.Refines.trans {o o₁ o₂ : Ocx} (h₁ : o.Refines T F o₁) (h₂ : o₁.Refines T F o₂) :
    o.Refines T F o₂ := by
  refine ⟨h₂.1.trans h₁.1, h₁.2.1.trans h₂.2.1, fun k f f₂ v hf hf₂ hv => ?_⟩
  obtain ⟨f₁, hf₁⟩ : ∃ f₁, o₁.funcs[k]? = some f₁ :=
    Option.isSome_iff_exists.mp (by simp [h₁.1, (List.getElem?_eq_some_iff.mp hf).1])
  exact h₂.2.2 k f₁ f₂ v hf₁ hf₂ (h₁.2.2 k f f₁ v hf hf₁ hv)

theorem Ocx.Simulates.refl (o : Ocx) : o.Simulates T F o :=
  ⟨rfl, Intern.Le.refl _, fun _ _ _ h₁ h₂ =>
    ⟨Eq, Option.some.inj (h₁.symm.trans h₂) ▸ Func.Simulation.refl (Intern.Le.refl _) _⟩⟩

theorem Ocx.Simulates.trans {o o₁ o₂ : Ocx} (h₁ : o.Simulates T F o₁) (h₂ : o₁.Simulates T F o₂) :
    o.Simulates T F o₂ := by
  refine ⟨h₂.length.trans h₁.length, h₁.pool.trans h₂.pool, fun k f f₂ hf hf₂ => ?_⟩
  obtain ⟨f₁, hf₁⟩ : ∃ f₁, o₁.funcs[k]? = some f₁ :=
    Option.isSome_iff_exists.mp (by simp [h₁.length, (List.getElem?_eq_some_iff.mp hf).1])
  obtain ⟨R₁, hs₁⟩ := h₁.sim k f f₁ hf hf₁
  obtain ⟨R₂, hs₂⟩ := h₂.sim k f₁ f₂ hf₁ hf₂
  exact ⟨_, hs₁.comp hs₂⟩

/-- A simulation keeps in particular the values of the entries. -/
theorem Ocx.Simulates.refines {o o' : Ocx} (h : o.Simulates T F o') : o.Refines T F o' :=
  ⟨h.length, h.pool, fun k f f' v hf hf' hv =>
    have ⟨_, hs⟩ := h.sim k f f' hf hf'
    hs.value hs.entry v hv⟩

/-- One `Fold::run` of the driver simulates the IR and keeps it ready for the fold: the
function it folds is simulated along `old_new`, the others along the identity. -/
theorem Fold.pass_simulates {o o' : Ocx} {fid : Nat} (hw : o.FoldReady T)
    (h : Fold.pass T debug o fid = .ok o') : o.Simulates T F o' ∧ o'.FoldReady T := by
  obtain ⟨f, s, g, hf, hr, rfl⟩ := Fold.pass_eq_ok h
  obtain ⟨haf, hif⟩ := hw f (List.mem_iff_getElem?.mpr ⟨fid, hf⟩)
  have hp := (Fold.run_sound (F := F) haf hif hr).pool
  refine ⟨⟨by simp, hp, fun k f₁ f₁' h₁ h₁' => ?_⟩, fun f' hf' => ?_⟩
  · by_cases hk : fid = k
    · subst hk
      cases hf.symm.trans h₁
      obtain rfl : g = f₁' := by
        simpa [List.getElem?_set, (List.getElem?_eq_some_iff.mp hf).1] using h₁'
      exact ⟨_, Fold.run_simulation F haf hif hr⟩
    · rw [List.getElem?_set_ne hk] at h₁'
      cases h₁.symm.trans h₁'
      exact ⟨Eq, Func.Simulation.refl hp _⟩
  · rcases List.mem_or_eq_of_mem_set hf' with hf' | rfl
    · exact hw f' hf'
    · exact ⟨Func.Topo.acyclic T (Fold.run_topo haf hr), Fold.run_intArith haf hif hr⟩

/-- One `Fold::run` of the driver refines the IR and keeps it ready for the fold. -/
theorem Fold.pass_refines {o o' : Ocx} {fid : Nat} (hw : o.FoldReady T)
    (h : Fold.pass T debug o fid = .ok o') : o.Refines T F o' ∧ o'.FoldReady T :=
  (Fold.pass_simulates hw h).imp_left Ocx.Simulates.refines

end

/-! ## Builds

The other passes do not read the build, so a debug build of the optimizer, with its
`debug_assert!`s and overflow checks, either panics or leaves the IR a release build
leaves. -/

theorem Fold.pass_of_debug {o o' : Ocx} {fid : Nat} (h : Fold.pass T debug o fid = .ok o') :
    Fold.pass T false o fid = .ok o' := by
  unfold Fold.pass at h ⊢
  split at h
  · cases h
  split at h
  · cases h
  rw [Fold.run_of_debug ‹_›]
  exact h

theorem optimizeFunc_of_debug {flags : BitVec 6} {o o' : Ocx} {fid : Nat}
    (h : optimizeFunc T debug P flags o fid = .ok o') : optimizeFunc T false P flags o fid = .ok o' := by
  unfold optimizeFunc at h ⊢
  dsimp only at h ⊢
  by_cases hm : OptFlag.FOLD.mem flags
  · rw [if_pos hm] at h ⊢
    obtain ⟨o₁, h₁, h₂⟩ := bind_eq_ok.mp h
    exact bind_eq_ok.mpr ⟨o₁, Fold.pass_of_debug h₁, h₂⟩
  · rw [if_neg hm] at h ⊢
    exact h

theorem optimize_of_debug {flags : BitVec 6} {o o' : Ocx} (h : optimize T debug P flags o = .ok o') :
    optimize T false P flags o = .ok o' := by
  -- after `Inline`, the loop over the functions
  have hloop : ∀ x : Except Halt Ocx,
      (x >>= fun o => (List.range o.funcs.length).foldlM (optimizeFunc T debug P flags) o) = .ok o' →
      (x >>= fun o => (List.range o.funcs.length).foldlM (optimizeFunc T false P flags) o) = .ok o' :=
    fun x hx => by
      obtain ⟨o₁, h₁, h₂⟩ := bind_eq_ok.mp hx
      exact bind_eq_ok.mpr ⟨o₁, h₁, foldlM_of_imp optimizeFunc_of_debug h₂⟩
  unfold optimize at h ⊢
  dsimp only at h ⊢
  split at h
  · rw [if_pos ‹_›]; exact hloop _ h
  · rw [if_neg ‹_›]; exact hloop _ h

theorem iterate_of_debug {flags : BitVec 6} :
    ∀ {n size : Nat} {o : Ocx} {r : Ocx × Option Nat},
      Optimize.iterate T debug P flags n size o = .ok r →
      Optimize.iterate T false P flags n size o = .ok r
  | 0, _, _, _, h => h
  | n + 1, size, o, r, h => by
    unfold Optimize.iterate at h ⊢
    split at h
    · cases h
    rw [optimize_of_debug ‹_›]
    dsimp only
    split at h
    · rw [if_pos ‹_›]; exact h
    · rw [if_neg ‹_›]; exact iterate_of_debug h

/-- Whatever the flags, a result of `Stage::run` of `Optimize` in a debug build is its
result in a release build: the IR and the iteration the loop converged in. -/
theorem Optimize.run_release_of_debug {flags : BitVec 6} {o : Ocx} {r : Ocx × Option Nat}
    (h : Optimize.run T debug P flags o = .ok r) : Optimize.run T false P flags o = .ok r :=
  iterate_of_debug h

theorem Optimize.run_release_of_debug_sample :
    ∃ r, Optimize.run OpTable.sample true Passes.skip OptFlag.FOLD.only Ocx.sample = .ok r ∧
      Optimize.run OpTable.sample false Passes.skip OptFlag.FOLD.only Ocx.sample = .ok r :=
  ⟨_, rfl, @Optimize.run_release_of_debug _ true _ _ _ _ rfl⟩

/-! ## Fuel under `FOLD`

Only the loops of `Fold::run` have fuel in the model.  On acyclic functions they never run
out, and the driver keeps its functions acyclic, so with flags `{FOLD}` the driver never runs
out either: it returns, or panics. -/

section
variable {T : OpTable} {debug : Bool} {P : Passes}

theorem Fold.pass_error {o : Ocx} {fid : Nat} {e : Halt} (ha : ∀ f ∈ o.funcs, f.Acyclic T)
    (h : Fold.pass T debug o fid = .error e) : e = .panic := by
  unfold Fold.pass at h
  split at h
  · cases h; rfl
  split at h
  · cases h; exact Fold.run_error (ha _ (List.mem_iff_getElem?.mpr ⟨fid, ‹_›⟩)) ‹_›
  · cases h

theorem optimize_foldOnly_error {o : Ocx} {e : Halt} (ha : ∀ f ∈ o.funcs, f.Acyclic T)
    (h : optimize T debug P OptFlag.FOLD.only o = .error e) : e = .panic := by
  rw [optimize_foldOnly_eq] at h
  exact foldlM_error (fun o : Ocx => ∀ f ∈ o.funcs, f.Acyclic T)
    (fun _ _ _ hb hs => (Fold.pass_size hb hs).2.2) (fun _ _ _ hb hs => Fold.pass_error hb hs) ha h

theorem iterate_foldOnly_error :
    ∀ {n size : Nat} {o : Ocx} {e : Halt}, (∀ f ∈ o.funcs, f.Acyclic T) →
      Optimize.iterate T debug P OptFlag.FOLD.only n size o = .error e → e = .panic
  | 0, _, _, _, _, h => by cases h
  | n + 1, size, o, e, ha, h => by
    unfold Optimize.iterate at h
    split at h
    · cases h; exact optimize_foldOnly_error ha ‹_›
    rename_i o₁ h₁
    split at h
    · cases h
    · exact iterate_foldOnly_error (optimize_foldOnly ha h₁).2 h

/-- With flags `{FOLD}`, on an IR of acyclic functions, `Stage::run` of `Optimize` never runs
out of fuel: it returns, or panics in a `Fold::run`. -/
theorem Optimize.run_foldOnly_ne_fuel {o : Ocx} (ha : ∀ f ∈ o.funcs, f.Acyclic T) :
    Optimize.run T debug P OptFlag.FOLD.only o ≠ .error .fuel := fun h => by
  cases iterate_foldOnly_error ha h

theorem Optimize.run_foldOnly_ne_fuel_sample :
    (∀ f ∈ Ocx.sample.funcs, f.Acyclic OpTable.sample) ∧
      Optimize.run OpTable.sample false Passes.skip OptFlag.FOLD.only Ocx.sample ≠ .error .fuel := by
  have ha : ∀ f ∈ Ocx.sample.funcs, f.Acyclic OpTable.sample := by
    simp only [Ocx.sample, List.mem_singleton, forall_eq]
    exact Func.Topo.acyclic _ (by decide)
  exact ⟨ha, @Optimize.run_foldOnly_ne_fuel _ false Passes.skip _ ha⟩

end

/-! ## Convergence under `FOLD`

`optimize` with flags `{FOLD}` replaces each function by the function `Fold::run` returns
for it (`optimize_foldOnly_funcs`).  After one iteration every function is canonical; a
second run of the fold on a canonical function keeps exactly its reachable instructions,
one for one, and all it keeps is reachable; a third keeps its length (`Fold.rerun_length`).
So the third iteration leaves `irsize` unchanged, and the loop stops by then. -/

/-- The loop over the first `n` functions runs `Fold::run` on each of them, and leaves the
others. -/
theorem foldlM_pass {n : Nat} : ∀ {o o' : Ocx}, n ≤ o.funcs.length →
    (List.range n).foldlM (Fold.pass T debug) o = .ok o' →
    o'.funcs.length = o.funcs.length ∧ ∀ (k : Nat) (f' : Func), o'.funcs[k]? = some f' →
      ∃ f, o.funcs[k]? = some f ∧ (k < n → ∃ p s, Fold.run T debug p f = .ok (s, f')) ∧
        (n ≤ k → f' = f) := by
  induction n with
  | zero =>
    intro o o' _ h
    cases h
    exact ⟨rfl, fun k f' hk => ⟨f', hk, fun h => absurd h (Nat.not_lt_zero _), fun _ => rfl⟩⟩
  | succ n ih =>
    intro o o' hn h
    rw [List.range_succ, List.foldlM_append] at h
    obtain ⟨o₁, h₁, h₂⟩ := bind_eq_ok.mp h
    simp only [List.foldlM_cons, List.foldlM_nil, bind_pure] at h₂
    obtain ⟨hlen₁, hs₁⟩ := ih (Nat.le_of_succ_le hn) h₁
    obtain ⟨f, s, g, hf, hr, rfl⟩ := Fold.pass_eq_ok h₂
    refine ⟨by simp [hlen₁], fun k f' hk => ?_⟩
    by_cases hkn : n = k
    · subst hkn
      obtain ⟨f₀, hf₀, -, heq⟩ := hs₁ n f hf
      obtain rfl := heq le_rfl
      have : g = f' := by
        simpa [List.getElem?_set, (List.getElem?_eq_some_iff.mp hf).1] using hk
      subst this
      exact ⟨f, hf₀, fun _ => ⟨o₁.intern, s, hr⟩, fun h => absurd h (by omega)⟩
    · rw [List.getElem?_set_ne hkn] at hk
      obtain ⟨f₀, hf₀, hrun, heq⟩ := hs₁ k f' hk
      exact ⟨f₀, hf₀, fun h => hrun (by omega), fun h => heq (by omega)⟩

/-- With flags `{FOLD}`, each function after `optimize` is what `Fold::run` returned for the
function at its index. -/
theorem optimize_foldOnly_funcs {o o' : Ocx} (h : optimize T debug P OptFlag.FOLD.only o = .ok o') :
    o'.funcs.length = o.funcs.length ∧ ∀ (k : Nat) (f' : Func), o'.funcs[k]? = some f' →
      ∃ (f : Func) (p : Intern) (s : Fcx), o.funcs[k]? = some f ∧ Fold.run T debug p f = .ok (s, f') := by
  rw [optimize_foldOnly_eq] at h
  obtain ⟨hlen, hs⟩ := foldlM_pass le_rfl h
  refine ⟨hlen, fun k f' hk => ?_⟩
  obtain ⟨f, hf, hrun, -⟩ := hs k f' hk
  obtain ⟨p, s, hr⟩ := hrun (hlen ▸ (List.getElem?_eq_some_iff.mp hk).1)
  exact ⟨f, p, s, hf, hr⟩

/-- Every function `optimize` returns with flags `{FOLD}` is what `Fold::run` returned on a
function of the input. -/
theorem optimize_foldOnly_mem {o o' : Ocx} (h : optimize T debug P OptFlag.FOLD.only o = .ok o')
    {f' : Func} (hf' : f' ∈ o'.funcs) : ∃ f ∈ o.funcs, ∃ p s, Fold.run T debug p f = .ok (s, f') := by
  obtain ⟨k, hk⟩ := List.mem_iff_getElem?.mp hf'
  obtain ⟨f, p, s, hf, hr⟩ := (optimize_foldOnly_funcs h).2 k f' hk
  exact ⟨f, List.mem_iff_getElem?.mpr ⟨k, hf⟩, p, s, hr⟩

section
variable (hT : T.CseNoControls)
include hT

/-- With flags `{FOLD}`, `optimize` of an IR of canonical functions succeeds. -/
theorem optimize_foldOnly_ok {o : Ocx} (hc : ∀ f ∈ o.funcs, f.Canon T) :
    ∃ o', optimize T debug P OptFlag.FOLD.only o = .ok o' := by
  rw [optimize_foldOnly_eq]
  -- each `Fold::run` succeeds on a canonical function, and returns a canonical one
  have hstep : ∀ (b : Ocx), ∀ fid ∈ List.range o.funcs.length,
      b.funcs.length = o.funcs.length ∧ (∀ f ∈ b.funcs, f.Canon T) →
      ∃ b', Fold.pass T debug b fid = .ok b' ∧
        b'.funcs.length = o.funcs.length ∧ ∀ f ∈ b'.funcs, f.Canon T := by
    rintro b fid hfid ⟨hlen, hb⟩
    obtain ⟨f, hf⟩ : ∃ f, b.funcs[fid]? = some f :=
      Option.ne_none_iff_exists'.mp (by simpa [hlen] using List.mem_range.mp hfid)
    have hcf := hb f (List.mem_iff_getElem?.mpr ⟨fid, hf⟩)
    obtain ⟨s, g, hr⟩ := Fold.rerun_ok hT hcf debug b.intern
    refine ⟨⟨s.intern, b.funcs.set fid g⟩, by simp [Fold.pass, hf, hr], by simp [hlen],
      fun f' hf' => ?_⟩
    rcases List.mem_or_eq_of_mem_set hf' with hf' | rfl
    exacts [hb f' hf', Fold.run_canon (hcf.topo.acyclic T) hr]
  obtain ⟨o', h, -⟩ := foldlM_ok _ hstep ⟨rfl, hc⟩
  exact ⟨o', h⟩

omit hT in
/-- IRs with the same number of functions, of the same lengths, have the same size. -/
theorem irsize_eq_of_lengths {o o' : Ocx} (hlen : o'.funcs.length = o.funcs.length)
    (h : ∀ (k : Nat) (f' : Func), o'.funcs[k]? = some f' →
      ∃ f, o.funcs[k]? = some f ∧ f'.code.length = f.code.length) :
    irsize o' = irsize o := by
  have : o'.funcs.map (fun f => f.code.length) = o.funcs.map (fun f => f.code.length) := by
    refine List.ext_getElem? fun k => ?_
    cases hk : o'.funcs[k]? with
    | none =>
      have : o.funcs[k]? = none := by rw [List.getElem?_eq_none_iff] at hk ⊢; omega
      simp [hk, this]
    | some f' =>
      obtain ⟨f, hf, hl⟩ := h k f' hk
      simp [hk, hf, hl]
  simp only [irsize, this, hlen]

omit hT in
theorem Optimize.iterate_succ_ok {flags : BitVec 6} {n size : Nat} {o o' : Ocx}
    (h : optimize T debug P flags o = .ok o') :
    Optimize.iterate T debug P flags (n + 1) size o =
      if size = irsize o' then .ok (o', some (maxIter - n))
      else Optimize.iterate T debug P flags n (irsize o') o' := by
  simp only [Optimize.iterate, h]

/-- With flags `{FOLD}`, on an IR of acyclic functions whose first `optimize` succeeds,
`Stage::run` stops within three iterations: after two, every function is canonical and
holds only reachable instructions, and the third keeps the size. -/
theorem Optimize.run_le_three {o o₁ : Ocx} (ha : ∀ f ∈ o.funcs, f.Acyclic T)
    (h₁ : optimize T debug P OptFlag.FOLD.only o = .ok o₁) :
    ∃ o' i, Optimize.run T debug P OptFlag.FOLD.only o = .ok (o', some i) ∧ i ≤ 3 := by
  have hc₁ : ∀ f ∈ o₁.funcs, f.Canon T := fun f hf => by
    obtain ⟨f₀, hf₀, p, s, hr⟩ := optimize_foldOnly_mem h₁ hf
    exact Fold.run_canon (ha f₀ hf₀) hr
  obtain ⟨o₂, h₂⟩ := optimize_foldOnly_ok (P := P) hT hc₁
  have hc₂ : ∀ f ∈ o₂.funcs, f.Canon T ∧ ∀ k < f.code.length, f.Reach T k := fun f hf => by
    obtain ⟨f₀, hf₀, p, s, hr⟩ := optimize_foldOnly_mem h₂ hf
    have hc := hc₁ f₀ hf₀
    exact ⟨Fold.run_canon (hc.topo.acyclic T) hr, Fold.rerun_reach_all hT hc hr⟩
  obtain ⟨o₃, h₃⟩ := optimize_foldOnly_ok (P := P) hT fun f hf => (hc₂ f hf).1
  have hsize : irsize o₃ = irsize o₂ := by
    obtain ⟨hlen, hs⟩ := optimize_foldOnly_funcs h₃
    refine irsize_eq_of_lengths hlen fun k f' hk => ?_
    obtain ⟨f, p, s, hf, hr⟩ := hs k f' hk
    obtain ⟨hc, hall⟩ := hc₂ f (List.mem_iff_getElem?.mpr ⟨k, hf⟩)
    exact ⟨f, hf, Fold.rerun_length hT hc hall hr⟩
  -- the loop stops at the first iteration that keeps the size
  have e : Optimize.run T debug P OptFlag.FOLD.only o =
      Optimize.iterate T debug P OptFlag.FOLD.only (97 + 1 + 1 + 1) (irsize o) o := rfl
  rw [e, Optimize.iterate_succ_ok h₁]
  split
  · exact ⟨o₁, _, rfl, by decide⟩
  rw [Optimize.iterate_succ_ok h₂]
  split
  · exact ⟨o₂, _, rfl, by decide⟩
  rw [Optimize.iterate_succ_ok h₃, if_pos hsize.symm]
  exact ⟨o₃, _, rfl, by decide⟩

end

/-- A function `Fold::run` returned reaches a size fixpoint within two more runs.  A second
run maps the ids reachable in it one to one onto its code: each is pushed as its own
instruction with the inputs renamed (`ADD` and `MUL` may swap them) and the control
successors fixed up, so no constant fold, simplification, `MOV` elimination or CSE merge
happens.  Its code has one instruction per reachable id, all of them reachable, and a
third run keeps its length.  So the driver with flags `{FOLD}` stops within three
iterations.  The opcode table's `is_cse` opcodes have no control slots. -/
theorem Fold.run_twice_fixpoint (hT : T.CseNoControls)
    {f : Func} (ha : f.Acyclic T) {p : Intern} {s : Fcx} {g : Func}
    (h : Fold.run T debug p f = .ok (s, g)) (debug' : Bool) (p' : Intern) :
    (∃ s' h', Fold.run T debug' p' g = .ok (s', h') ∧
      (∀ id, s'.Visited id ↔ g.Reach T id) ∧
      (∀ i j m : Nat, s'.oldNew[i]? = some (some m) → s'.oldNew[j]? = some (some m) → i = j) ∧
      (∀ k < h'.code.length, ∃ id, g.Reach T id ∧ s'.oldNew[id]? = some (some k)) ∧
      (∀ id m : Nat, s'.oldNew[id]? = some (some m) → ∃ ins j ins' : Ins, g.code[id]? = some ins ∧
        s'.code[m]? = some j ∧ ins.Renamed T s'.oldNew j ∧ h'.code[m]? = some ins' ∧
        j.Fixed T s'.oldNew ins') ∧
      h'.code.length = s'.numVisited ∧
      (∀ k < h'.code.length, h'.Reach T k) ∧
      ∀ (debug'' : Bool) (p'' : Intern), ∃ s'' h'', Fold.run T debug'' p'' h' = .ok (s'', h'') ∧
        h''.code.length = h'.code.length) ∧
    ∀ (passes : Passes) (o o₁ : Ocx), (∀ f ∈ o.funcs, f.Acyclic T) →
      optimize T debug passes OptFlag.FOLD.only o = .ok o₁ →
      ∃ o' i, Optimize.run T debug passes OptFlag.FOLD.only o = .ok (o', some i) ∧ i ≤ 3 := by
  have hg := Fold.run_canon ha h
  obtain ⟨s', h', hr⟩ := Fold.rerun_ok hT hg debug' p'
  obtain ⟨hw, hreach, hlen, -, -⟩ := Fold.run_spec (hg.topo.acyclic T) hr
  have hsim := Fold.rerun_sim hT hg hr
  have hall := Fold.rerun_reach_all hT hg hr
  have hg' := Fold.run_canon (hg.topo.acyclic T) hr
  refine ⟨⟨s', h', hr, hreach, fun _ _ _ => hsim.inj, fun k hk => ?_,
    fun _ _ => Fold.rerun_code hT hg hr, hlen.trans hsim.count, hall, fun debug'' p'' => ?_⟩,
    fun _ _ _ ha h₁ => Optimize.run_le_three hT ha h₁⟩
  · obtain ⟨id, hid⟩ := hw.image (hlen ▸ hk)
    exact ⟨id, (hreach id).mp ⟨k, hid⟩, hid⟩
  · obtain ⟨s'', h'', hr'⟩ := Fold.rerun_ok hT hg' debug'' p''
    exact ⟨s'', h'', hr', Fold.rerun_length hT hg' hall hr'⟩

theorem Fold.run_twice_fixpoint_sample :
    OpTable.sample.CseNoControls ∧
      Func.sample.Acyclic OpTable.sample ∧
      ∃ s g, Fold.run OpTable.sample false ⟨[]⟩ Func.sample = .ok (s, g) ∧
        (∃ s' h', Fold.run OpTable.sample false ⟨[]⟩ g = .ok (s', h') ∧
          h'.code.length = s'.numVisited ∧ ∀ k < h'.code.length, h'.Reach OpTable.sample k) ∧
        ∃ o' i, Optimize.run OpTable.sample false Passes.skip OptFlag.FOLD.only Ocx.sample =
          .ok (o', some i) ∧ i ≤ 3 := by
  have hT := OpTable.sample_cseNoControls
  have ha : Func.sample.Acyclic OpTable.sample := Func.Topo.acyclic _ (by decide)
  obtain ⟨s, g, hrun⟩ : ∃ s g, Fold.run OpTable.sample false ⟨[]⟩ Func.sample = .ok (s, g) :=
    ⟨_, _, rfl⟩
  obtain ⟨⟨s', h', hr, -, -, -, -, hcount, hall, -⟩, hdrv⟩ :=
    Fold.run_twice_fixpoint hT ha hrun false ⟨[]⟩
  obtain ⟨o₁, h₁⟩ : ∃ o₁, optimize OpTable.sample false Passes.skip OptFlag.FOLD.only Ocx.sample =
      .ok o₁ := ⟨_, rfl⟩
  exact ⟨hT, ha, s, g, hrun, ⟨s', h', hr, hcount, hall⟩,
    hdrv Passes.skip Ocx.sample o₁ (by simpa [Ocx.sample] using ha) h₁⟩

end Fhk5
