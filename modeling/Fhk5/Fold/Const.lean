import Fhk5.Ir
import Fhk5.Except

/-!
# Constants and constant arithmetic

The helpers of `opt_fold.rs` that read, build and combine constants.

*Reading.*  `kintvalue` reads a constant as an `i64`: a `KINT` sign-extends its 32-bit
immediate, a `KINT64` reads its pool word, and a `KFP64` converts its pool float with
`as`.  `kfpvalue` reads a constant as an `f64` the same way.  Any other opcode reaches
`unreachable!()`.

*Building.*  `newkint` keeps a value that fits in an `i32` inline as a `KINT` and interns
any other value as a `KINT64`; `newkfp` does the same for floats that are exactly an
`i32`, and interns the rest as a `KFP64`.  `kintvalue_newkint` reads a built integer
constant back.  `newkint_exact` adds that the inline test is exactly the `i32` range, and
that two values give one instruction, in any later pool, only when they are equal: an
interned word keeps its handle as the pool grows (`newkint_of_le`).

*Arithmetic.*  `foldintarith` is Rust's `i64` arithmetic: `/` panics on a zero divisor
and on `i64::MIN / -1` in every build, and `+`, `-`, `*` panic on overflow when the crate
is built with overflow checks and wrap otherwise.  The flag `debug` stands for
`cfg!(debug_assertions)`, which also turns the `debug_assert!`s of the fold on.

Rust panics are `Halt.panic`.  `Halt.fuel` is reserved for the fuel of the loops of the
later modules running out, which the source has no counterpart of.

Floats are Lean's `Float`, which is IEEE-754 binary64.  The bit conversions `f64::from_bits`
and `f64::to_bits` are written with `Float.scaleB` and `Float.frExp`, and the
saturating `f64 as iN` is computed on the bits, so that `kintvalue` of a `KFP64` can be
evaluated.  Nothing is proved about float values.
-/

namespace Fhk5

/-! ## Floats -/

/-- `f64::from_bits`. -/
def f64OfBits (w : BitVec 64) : Float :=
  let e := (w >>> 52).toNat % 2048
  let m := w.toNat % (1 <<< 52)
  let mag : Float :=
    if e = 2047 then (if m = 0 then 1 / 0 else 0 / 0)
    else if e = 0 then (Float.ofNat m).scaleB (-1074)
    else (Float.ofNat (m + 1 <<< 52)).scaleB (e - 1075)
  if w.msb then -mag else mag

/-- `f64::to_bits`.  A NaN gives the quiet NaN, whose payload `Float` does not keep. -/
def f64ToBits (x : Float) : BitVec 64 :=
  let sign : BitVec 64 := if x < 0 ∨ (x == 0 && 1 / x < 0) then 1 <<< 63 else 0
  let a := x.abs
  if x.isNaN then 0x7FF8000000000000
  else if x.isInf then sign ||| 0x7FF0000000000000
  else if a == 0 then sign
  else
    let (m, e) := a.frExp
    if e < -1021 then sign ||| BitVec.ofNat 64 (a.scaleB 1074).toUInt64.toNat
    else
      sign ||| BitVec.ofNat 64 ((e + 1022).toNat <<< 52)
        ||| BitVec.ofNat 64 ((m.scaleB 53).toUInt64.toNat - 1 <<< 52)

/-- `f64 as iN` on the bits of the float: truncate toward zero, saturate, NaN to zero. -/
def f64BitsToInt (n : Nat) (w : BitVec 64) : BitVec n :=
  let e := (w >>> 52).toNat % 2048
  let m := w.toNat % (1 <<< 52)
  if e = 2047 ∧ m ≠ 0 then 0
  else
    let mag := if e = 0 then 0 else (m + 1 <<< 52) <<< e >>> 1075
    if w.msb then (if 1 <<< (n - 1) ≤ mag then BitVec.intMin n else -BitVec.ofNat n mag)
    else if 1 <<< (n - 1) ≤ mag then BitVec.intMax n else BitVec.ofNat n mag

/-! ## Reading constants -/

/-- `kintvalue`: a constant read as an `i64`. -/
def kintvalue (p : Intern) (ins : Ins) : Except Halt (BitVec 64) :=
  match ins.opcode with
  | .KINT => pure ((BitVec.ofNat 32 ins.bc).signExtend 64)
  | .KINT64 => match p.read ins.bc with
    | some w => pure w
    | none => throw .panic
  | .KFP64 => match p.read ins.bc with
    | some w => pure (f64BitsToInt 64 w)
    | none => throw .panic
  | _ => throw .panic

/-- `kfpvalue`: a constant read as an `f64`. -/
def kfpvalue (p : Intern) (ins : Ins) : Except Halt Float :=
  match ins.opcode with
  | .KINT => pure (Float.ofInt (BitVec.ofNat 32 ins.bc).toInt)
  | .KINT64 => match p.read ins.bc with
    | some w => pure (Float.ofInt w.toInt)
    | none => throw .panic
  | .KFP64 => match p.read ins.bc with
    | some w => pure (f64OfBits w)
    | none => throw .panic
  | _ => throw .panic

/-! ## Building constants -/

/-- `newkint`: an `i32`-sized value inline, any other value interned. -/
def newkint (p : Intern) (ty : Ty) (value : BitVec 64) : Intern × Ins :=
  if value = (value.setWidth 32).signExtend 64 then (p, Ins.KINT ty (value.setWidth 32))
  else ((p.intern value).1, Ins.KINT64 ty (p.intern value).2)

/-- `newkfp`: a float that is exactly an `i32` inline, any other float interned. -/
def newkfp (p : Intern) (ty : Ty) (value : Float) : Intern × Ins :=
  let v32 := f64BitsToInt 32 (f64ToBits value)
  if value == Float.ofInt v32.toInt then (p, Ins.KINT ty v32)
  else ((p.intern (f64ToBits value)).1, Ins.KFP64 ty (p.intern (f64ToBits value)).2)

/-! ## Constant arithmetic -/

/-- An `i64` operation whose exact result `x` leaves the `i64` range overflows. -/
def overflows (x : Int) : Bool := x < (BitVec.intMin 64).toInt || (BitVec.intMax 64).toInt < x

/-- `foldintarith`: Rust's `i64` arithmetic.  `UDIV` divides the same bits as `u64`. -/
def foldintarith (debug : Bool) (op : Opcode) (left right : BitVec 64) : Except Halt (BitVec 64) :=
  match op with
  | .ADD => if debug && overflows (left.toInt + right.toInt) then throw .panic else pure (left + right)
  | .SUB => if debug && overflows (left.toInt - right.toInt) then throw .panic else pure (left - right)
  | .MUL => if debug && overflows (left.toInt * right.toInt) then throw .panic else pure (left * right)
  | .DIV =>
    if right = 0 ∨ (left = BitVec.intMin 64 ∧ right = -1) then throw .panic
    else pure (left.sdiv right)
  | .UDIV => if right = 0 then throw .panic else pure (left / right)
  | _ => throw .panic

/-- `foldfparith`: `f64` arithmetic, `POW` is `powf`. -/
def foldfparith (op : Opcode) (left right : Float) : Except Halt Float :=
  match op with
  | .ADD => pure (left + right)
  | .SUB => pure (left - right)
  | .MUL => pure (left * right)
  | .DIV => pure (left / right)
  | .POW => pure (left.pow right)
  | _ => throw .panic

/-! ## Lemmas -/

theorem kintvalue_of_le {p q : Intern} (hpq : p.Le q) {ins : Ins} {v : BitVec 64}
    (h : kintvalue p ins = .ok v) : kintvalue q ins = .ok v := by
  unfold kintvalue at *
  cases hr : p.read ins.bc with
  | none => split at h <;> simp_all
  | some w => simpa [hpq.read hr, hr] using h

/-- A value built by `newkint` reads back with `kintvalue`. -/
theorem kintvalue_newkint (p : Intern) (ty : Ty) (v : BitVec 64) :
    kintvalue (newkint p ty v).1 (newkint p ty v).2 = .ok v := by
  unfold newkint
  split
  · rename_i h
    simp only [kintvalue, Ins.opcode_KINT, Ins.bc_KINT, BitVec.ofNat_toNat]
    show Except.ok (BitVec.signExtend 64 (BitVec.setWidth 32 (BitVec.setWidth 32 v))) = .ok v
    rw [BitVec.setWidth_setWidth_of_le _ (le_refl _), ← h]
  · simp only [kintvalue, Ins.opcode_KINT64, Ins.bc_KINT64, Intern.read_intern]
    rfl

theorem le_newkint (p : Intern) (ty : Ty) (v : BitVec 64) : p.Le (newkint p ty v).1 := by
  unfold newkint; split
  · exact Intern.Le.refl p
  · exact Intern.le_intern p v

/-- The fit test of `newkint`, `value == (value as i32) as _`, holds exactly in the `i32`
range. -/
theorem signExtend_setWidth_eq_iff (v : BitVec 64) :
    v = (v.setWidth 32).signExtend 64 ↔
      (BitVec.intMin 32).toInt ≤ v.toInt ∧ v.toInt ≤ (BitVec.intMax 32).toInt := by
  rw [show (BitVec.intMin 32).toInt = -2147483648 from rfl,
    show (BitVec.intMax 32).toInt = 2147483647 from rfl, BitVec.toNat_eq, BitVec.signExtend,
    BitVec.toNat_ofInt, BitVec.toInt, BitVec.toInt, BitVec.toNat_setWidth]
  have := v.isLt
  -- the signs of `v` and of its low half
  by_cases h₁ : 2 * (v.toNat % 2 ^ 32) < 2 ^ 32 <;> by_cases h₂ : 2 * v.toNat < 2 ^ 64 <;>
    simp only [h₁, h₂, if_true, if_false] <;> omega

/-- A later `newkint` of the same value and type, with a pool that extends the one an
earlier `newkint` returned, gives the same instruction. -/
theorem newkint_of_le {p q : Intern} {ty : Ty} {v : BitVec 64} (h : (newkint p ty v).1.Le q) :
    (newkint q ty v).2 = (newkint p ty v).2 := by
  unfold newkint at h ⊢
  split
  · rfl
  · rw [if_neg ‹_›] at h
    rw [Intern.intern_of_le h]

/-- `newkint` is exact.  `kintvalue` reads back the value it is given; the value is inline in
a `KINT` exactly when it is in the `i32` range, and interned in a `KINT64` otherwise; and
`newkint` is injective.  Across one run, where the pool only grows, a later `newkint` of the
same type gives the instruction of an earlier one exactly for the same value, so `cse_map`
merges equal folded constants and only those. -/
theorem newkint_exact (p : Intern) (ty : Ty) (v : BitVec 64) :
    kintvalue (newkint p ty v).1 (newkint p ty v).2 = .ok v ∧
      (newkint p ty v).2.opcode =
        (if (BitVec.intMin 32).toInt ≤ v.toInt ∧ v.toInt ≤ (BitVec.intMax 32).toInt then .KINT
          else .KINT64) ∧
      Function.Injective (newkint p ty) ∧
      ∀ (q : Intern) (w : BitVec 64), (newkint p ty v).1.Le q →
        ((newkint q ty w).2 = (newkint p ty v).2 ↔ w = v) := by
  refine ⟨kintvalue_newkint p ty v, ?_, fun w w' hw => ?_, fun q w hq => ⟨fun he => ?_, ?_⟩⟩
  · unfold newkint
    by_cases hv : v = (v.setWidth 32).signExtend 64
    · rw [if_pos hv, if_pos ((signExtend_setWidth_eq_iff v).mp hv)]; rfl
    · rw [if_neg hv, if_neg (mt (signExtend_setWidth_eq_iff v).mpr hv)]; rfl
  · have h := kintvalue_newkint p ty w
    rw [hw, kintvalue_newkint] at h
    exact (Except.ok.inj h).symm
  · -- the earlier instruction still reads `v` in the pool of the later call
    have h := kintvalue_of_le (hq.trans (le_newkint q ty w)) (kintvalue_newkint p ty v)
    rw [← he, kintvalue_newkint] at h
    exact Except.ok.inj h
  · rintro rfl
    exact newkint_of_le hq

example : (newkint ⟨[]⟩ .I64 0x7FFFFFFF).2 = Ins.KINT .I64 0x7FFFFFFF ∧
    newkint ⟨[]⟩ .I64 0x80000000 = (⟨[0x80000000]⟩, Ins.KINT64 .I64 0) := by
  decide

theorem le_newkfp (p : Intern) (ty : Ty) (v : Float) : p.Le (newkfp p ty v).1 := by
  simp only [newkfp]; split
  · exact Intern.Le.refl p
  · exact Intern.le_intern p _

theorem kfpvalue_of_le {p q : Intern} (hpq : p.Le q) {ins : Ins} {v : Float}
    (h : kfpvalue p ins = .ok v) : kfpvalue q ins = .ok v := by
  unfold kfpvalue at *
  cases hr : p.read ins.bc with
  | none => split at h <;> simp_all
  | some w => simpa [hpq.read hr, hr] using h

/-- A later `newkfp` of the same value and type, with a pool that extends the one an
earlier `newkfp` returned, gives the same instruction. -/
theorem newkfp_of_le {p q : Intern} {ty : Ty} {v : Float} (h : (newkfp p ty v).1.Le q) :
    (newkfp q ty v).2 = (newkfp p ty v).2 := by
  simp only [newkfp] at h ⊢
  split
  · rfl
  · rw [if_neg ‹_›] at h
    rw [Intern.intern_of_le h]

/-- A result of a build with overflow checks is the result of a build without. -/
theorem foldintarith_of_debug {debug : Bool} {op : Opcode} {l r v : BitVec 64}
    (h : foldintarith debug op l r = .ok v) : foldintarith false op l r = .ok v := by
  cases debug
  · exact h
  · cases op <;> simp only [foldintarith, Bool.true_and, Bool.false_and] at h ⊢ <;>
      first | exact h | (split at h <;> simp_all)

/-! The helpers fail only by panicking. -/

section
variable {p : Intern} {ins : Ins} {e : Halt}

theorem kintvalue_error (h : kintvalue p ins = .error e) : e = .panic := by
  unfold kintvalue at h; split at h <;> (try split at h) <;> simp_all

theorem kfpvalue_error (h : kfpvalue p ins = .error e) : e = .panic := by
  unfold kfpvalue at h; split at h <;> (try split at h) <;> simp_all

theorem foldintarith_error {debug : Bool} {op : Opcode} {l r : BitVec 64}
    (h : foldintarith debug op l r = .error e) : e = .panic := by
  unfold foldintarith at h; split at h <;> (try split at h) <;> simp_all

theorem foldfparith_error {op : Opcode} {l r : Float} (h : foldfparith op l r = .error e) :
    e = .panic := by
  unfold foldfparith at h; split at h <;> simp_all

end

end Fhk5
