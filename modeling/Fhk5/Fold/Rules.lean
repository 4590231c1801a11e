import Fhk5.Fold.Const

/-!
# The rewrite rules of `fold`

`fold` looks at one instruction whose inputs are already ids of the new code, and at the
new code it points into.  Its arms are tried in order, each behind a guard:

* `foldsConst`: an arithmetic opcode with two constant inputs is evaluated, `foldConst`;
* `swapsInputs`: `ADD` and `MUL` put a constant input second and otherwise order their
  inputs by id, and ask to be folded `Again`;
* `isAddZero`, `isMulOne`: `x + 0`, `x * 1`, `x / 1` collapse to the `New` id `x`;
* `isMulZero`: `x * 0` is the constant `0`;
* `MOV x` collapses to `x`;
* anything else is `Done` unchanged.

An instruction no guard fires on is `Normal`, and then `fold` returns it `Done`
(`fold_of_normal`).  `fold_new`, `fold_again` and `fold_done` say everything a successful
`fold` can return.  `fold_swapInputs_ne_again` is the fact behind the termination of the
loop around `fold` in `visit`: after one swap no swap arm applies.

The guards read the new code with `code[v]?`.  The source indexes it and would panic on an
id past the end; `visit` only passes ids of the new code, so the guards read an absent
instruction as not matching.

A debug build only adds panics: its `debug_assert!`s and overflow checks either fail or
leave the result of a release build (`fold_of_debug`).

The last section is about the constant arm at integer types: the fold computes with
the 64-bit `foldintarith`, whatever the width of the type, and its `/` faults on
`i64::MIN / -1`.
-/

namespace Fhk5

/-- `FoldStatus`. -/
inductive FoldStatus where
  /-- The instruction is canonical. -/
  | Done (ins : Ins)
  /-- Fold the modified instruction again. -/
  | Again (ins : Ins)
  /-- The instruction collapses to an id of the new code. -/
  | New (id : Nat)
deriving DecidableEq, Repr

/-- `ADD|SUB|MUL|DIV|UDIV|POW`. -/
def Opcode.isArith : Opcode → Bool
  | .ADD | .SUB | .MUL | .DIV | .UDIV | .POW => true
  | _ => false

/-- `ADD|MUL`. -/
def Opcode.isComm : Opcode → Bool
  | .ADD | .MUL => true
  | _ => false

/-- `inputs_mut().swap(0, 1)` of a two-input instruction. -/
def Ins.swapInputs (ins : Ins) : Ins := { ins with a := ins.b, b := ins.a }

@[simp] theorem Ins.opcode_swapInputs (ins : Ins) : ins.swapInputs.opcode = ins.opcode := rfl
@[simp] theorem Ins.ty_swapInputs (ins : Ins) : ins.swapInputs.ty = ins.ty := rfl
@[simp] theorem Ins.a_swapInputs (ins : Ins) : ins.swapInputs.a = ins.b := rfl
@[simp] theorem Ins.b_swapInputs (ins : Ins) : ins.swapInputs.b = ins.a := rfl

variable (T : OpTable)

/-! ## Guards -/

/-- `ipat!(code, v; const)`. -/
def isConstAt (code : List Ins) (v : Nat) : Bool :=
  match code[v]? with
  | some i => i.opcode.isConst T
  | none => false

/-- `ipat!(code, v; k)` for a literal `k`: a `KINT` whose immediate is `k`. -/
def isKintAt (code : List Ins) (v : Nat) (k : BitVec 32) : Bool :=
  match code[v]? with
  | some i => i.opcode == .KINT && BitVec.ofNat 32 i.bc == k
  | none => false

/-- `ADD|SUB|MUL|DIV|UDIV|POW if m!(const const)`. -/
def foldsConst (code : List Ins) (ins : Ins) : Bool :=
  ins.opcode.isArith && isConstAt T code ins.a && isConstAt T code ins.b

/-- `ADD|MUL if m!(const _) || (ins.a() > ins.b() && !m!(_ const))`. -/
def swapsInputs (code : List Ins) (ins : Ins) : Bool :=
  ins.opcode.isComm && (isConstAt T code ins.a || (ins.b < ins.a && !isConstAt T code ins.b))

/-- `ADD if m!(_ 0)`. -/
def isAddZero (code : List Ins) (ins : Ins) : Bool :=
  ins.opcode == .ADD && isKintAt code ins.b 0

/-- `MUL|DIV|UDIV if m!(_ 1)`. -/
def isMulOne (code : List Ins) (ins : Ins) : Bool :=
  (ins.opcode == .MUL || ins.opcode == .DIV || ins.opcode == .UDIV) && isKintAt code ins.b 1

/-- `MUL if m!(_ 0)`. -/
def isMulZero (code : List Ins) (ins : Ins) : Bool :=
  ins.opcode == .MUL && isKintAt code ins.b 0

/-! ## `fold` -/

/-- The constant arithmetic arm of `fold`, on the two input instructions. -/
def foldConst (debug : Bool) (p : Intern) (op : Opcode) (ty : Ty) (left right : Ins) :
    Except Halt (Intern × Ins) := do
  if debug && (left.ty != ty || right.ty != ty) then throw .panic
  if ty.isFloat then
    let l ← kfpvalue p left
    let r ← kfpvalue p right
    let v ← foldfparith op l r
    pure (newkfp p ty v)
  else
    if debug && !ty.isInt then throw .panic
    let l ← kintvalue p left
    let r ← kintvalue p right
    let v ← foldintarith debug op l r
    pure (newkint p ty v)

/-- `fold`: one rewrite step on an instruction whose inputs are ids of `code`.  It may
intern a constant, so it returns the pool too. -/
def fold (debug : Bool) (p : Intern) (code : List Ins) (ins : Ins) :
    Except Halt (Intern × FoldStatus) :=
  if foldsConst T code ins then
    match code[ins.a]?, code[ins.b]? with
    | some left, some right =>
      (fun r => (r.1, .Done r.2)) <$> foldConst debug p ins.opcode ins.ty left right
    | _, _ => .error .panic
  else if swapsInputs T code ins then .ok (p, .Again ins.swapInputs)
  else if isAddZero code ins then .ok (p, .New ins.a)
  else if isMulOne code ins then .ok (p, .New ins.a)
  else if isMulZero code ins then .ok (p, .Done (Ins.KINT ins.ty 0))
  else if ins.opcode = .MOV then
    if debug && (code[ins.a]?.map Ins.opcode) == some .MOV then .error .panic
    else .ok (p, .New ins.a)
  else .ok (p, .Done ins)

/-- No arm of `fold` but the last applies. -/
def Normal (code : List Ins) (ins : Ins) : Prop :=
  foldsConst T code ins = false ∧ swapsInputs T code ins = false ∧ isAddZero code ins = false ∧
    isMulOne code ins = false ∧ isMulZero code ins = false ∧ ins.opcode ≠ .MOV

instance (code : List Ins) (ins : Ins) : Decidable (Normal T code ins) := by
  unfold Normal; infer_instance

/-! ## What `fold` returns -/

variable {T} {debug : Bool} {p p' : Intern} {code : List Ins} {ins : Ins}

theorem fold_of_normal (h : Normal T code ins) : fold T debug p code ins = .ok (p, .Done ins) := by
  obtain ⟨h1, h2, h3, h4, h5, h6⟩ := h
  simp [fold, h1, h2, h3, h4, h5, h6]

theorem map_done_eq_ok {x : Except Halt (Intern × Ins)} {r : Intern × FoldStatus}
    (h : (fun r => (r.1, FoldStatus.Done r.2)) <$> x = .ok r) :
    ∃ i, x = .ok (r.1, i) ∧ r.2 = .Done i := by
  cases x with
  | error => cases h
  | ok y => cases h; exact ⟨y.2, rfl, rfl⟩

/-- Everything a successful `fold` can return, arm by arm. -/
theorem fold_cases {st : FoldStatus} (h : fold T debug p code ins = .ok (p', st)) :
    (foldsConst T code ins ∧ ∃ left right i, code[ins.a]? = some left ∧ code[ins.b]? = some right ∧
        foldConst debug p ins.opcode ins.ty left right = .ok (p', i) ∧ st = .Done i) ∨
      (p' = p ∧ foldsConst T code ins = false ∧ swapsInputs T code ins ∧
        st = .Again ins.swapInputs) ∨
      (p' = p ∧ (isAddZero code ins ∨ isMulOne code ins ∨ ins.opcode = .MOV) ∧ st = .New ins.a) ∨
      (p' = p ∧ isMulZero code ins ∧ st = .Done (Ins.KINT ins.ty 0)) ∨
      (p' = p ∧ Normal T code ins ∧ st = .Done ins) := by
  unfold fold at h
  by_cases hf : foldsConst T code ins
  · rw [if_pos hf] at h
    split at h
    · obtain ⟨i, hi, hst⟩ := map_done_eq_ok h
      exact .inl ⟨hf, _, _, i, ‹_›, ‹_›, hi, hst⟩
    · cases h
  rw [if_neg hf] at h
  replace hf : foldsConst T code ins = false := by simpa using hf
  by_cases hs : swapsInputs T code ins
  · rw [if_pos hs] at h; cases h; exact .inr (.inl ⟨rfl, hf, hs, rfl⟩)
  rw [if_neg hs] at h
  by_cases hz : isAddZero code ins
  · rw [if_pos hz] at h; cases h; exact .inr (.inr (.inl ⟨rfl, .inl hz, rfl⟩))
  rw [if_neg hz] at h
  by_cases h1 : isMulOne code ins
  · rw [if_pos h1] at h; cases h; exact .inr (.inr (.inl ⟨rfl, .inr (.inl h1), rfl⟩))
  rw [if_neg h1] at h
  by_cases h0 : isMulZero code ins
  · rw [if_pos h0] at h; cases h; exact .inr (.inr (.inr (.inl ⟨rfl, h0, rfl⟩)))
  rw [if_neg h0] at h
  by_cases hm : ins.opcode = .MOV
  · rw [if_pos hm] at h
    split at h
    · cases h
    · cases h; exact .inr (.inr (.inl ⟨rfl, .inr (.inr hm), rfl⟩))
  rw [if_neg hm] at h
  cases h
  exact .inr (.inr (.inr (.inr ⟨rfl, ⟨hf, by simpa using hs, by simpa using hz, by simpa using h1,
    by simpa using h0, hm⟩, rfl⟩)))

/-- A `New` id is the first input, of `x + 0`, `x * 1`, `x / 1` or `MOV x`. -/
theorem fold_new {n : Nat} (h : fold T debug p code ins = .ok (p', .New n)) :
    p' = p ∧ n = ins.a ∧ (isAddZero code ins ∨ isMulOne code ins ∨ ins.opcode = .MOV) := by
  rcases fold_cases h with ⟨-, -, -, -, -, -, -, ⟨⟩⟩ | ⟨-, -, -, ⟨⟩⟩ | ⟨rfl, hk, ⟨⟩⟩ | ⟨-, -, ⟨⟩⟩ |
    ⟨-, -, ⟨⟩⟩
  exact ⟨rfl, rfl, hk⟩

/-- `Again` is the swap of `ADD` or `MUL` whose inputs are not both constants. -/
theorem fold_again {i : Ins} (h : fold T debug p code ins = .ok (p', .Again i)) :
    p' = p ∧ i = ins.swapInputs ∧ foldsConst T code ins = false ∧ swapsInputs T code ins := by
  rcases fold_cases h with ⟨-, -, -, -, -, -, -, ⟨⟩⟩ | ⟨rfl, hf, hs, ⟨⟩⟩ | ⟨-, -, ⟨⟩⟩ | ⟨-, -, ⟨⟩⟩ |
    ⟨-, -, ⟨⟩⟩
  exact ⟨rfl, rfl, hf, hs⟩

/-- A `Done` instruction is a folded constant, the constant `0` of `x * 0`, or the
instruction itself when it is normal. -/
theorem fold_done {i : Ins} (h : fold T debug p code ins = .ok (p', .Done i)) :
    (foldsConst T code ins ∧ ∃ left right, code[ins.a]? = some left ∧ code[ins.b]? = some right ∧
        foldConst debug p ins.opcode ins.ty left right = .ok (p', i)) ∨
      (p' = p ∧ isMulZero code ins ∧ i = Ins.KINT ins.ty 0) ∨
      (p' = p ∧ i = ins ∧ Normal T code ins) := by
  rcases fold_cases h with ⟨hf, l, r, i', hl, hr, hc, ⟨⟩⟩ | ⟨-, -, -, ⟨⟩⟩ | ⟨-, -, ⟨⟩⟩ |
    ⟨rfl, hz, ⟨⟩⟩ | ⟨rfl, hn, ⟨⟩⟩
  · exact .inl ⟨hf, l, r, hl, hr, hc⟩
  · exact .inr (.inl ⟨rfl, hz, rfl⟩)
  · exact .inr (.inr ⟨rfl, rfl, hn⟩)

/-- The constant arm evaluates both operands in the domain of the type and builds the
result with `newkfp` or `newkint`. -/
theorem foldConst_ok {op : Opcode} {ty : Ty} {left right c : Ins}
    (h : foldConst debug p op ty left right = .ok (p', c)) :
    (ty.isFloat ∧ ∃ l r v, kfpvalue p left = .ok l ∧ kfpvalue p right = .ok r ∧
        foldfparith op l r = .ok v ∧ newkfp p ty v = (p', c)) ∨
      (ty.isFloat = false ∧ ∃ l r v, kintvalue p left = .ok l ∧ kintvalue p right = .ok r ∧
        foldintarith debug op l r = .ok v ∧ newkint p ty v = (p', c)) := by
  unfold foldConst at h
  simp only [bind, Except.bind, pure, Except.pure] at h
  repeat' split at h
  all_goals first | cases h | skip
  · exact .inl ⟨‹ty.isFloat = true›, _, _, _, ‹kfpvalue p left = _›, ‹kfpvalue p right = _›,
      ‹foldfparith op _ _ = _›, Except.ok.inj h⟩
  · exact .inr ⟨by simpa using ‹¬ty.isFloat = true›, _, _, _, ‹kintvalue p left = _›,
      ‹kintvalue p right = _›, ‹foldintarith debug op _ _ = _›, Except.ok.inj h⟩

/-- `fold` only adds to the pool. -/
theorem le_fold {st : FoldStatus} (h : fold T debug p code ins = .ok (p', st)) : p.Le p' := by
  rcases st with i | i | i
  · rcases fold_done h with ⟨-, l, r, -, -, hc⟩ | ⟨rfl, -⟩ | ⟨rfl, -⟩
    · rcases foldConst_ok hc with ⟨-, _, _, v, -, -, -, hv⟩ | ⟨-, _, _, v, -, -, -, hv⟩
      · obtain rfl : (newkfp p ins.ty v).1 = p' := congrArg Prod.fst hv
        exact le_newkfp p _ v
      · obtain rfl : (newkint p ins.ty v).1 = p' := congrArg Prod.fst hv
        exact le_newkint p _ v
    · exact Intern.Le.refl _
    · exact Intern.Le.refl _
  · exact (fold_again h).1 ▸ Intern.Le.refl _
  · exact (fold_new h).1 ▸ Intern.Le.refl _

/-- `foldConst` fails only by panicking. -/
theorem foldConst_error {op : Opcode} {ty : Ty} {left right : Ins} {e : Halt}
    (h : foldConst debug p op ty left right = .error e) : e = .panic := by
  unfold foldConst at h
  simp only [bind, Except.bind, pure, Except.pure] at h
  repeat' split at h
  all_goals cases h
  all_goals first | rfl | exact kfpvalue_error ‹_› | exact kintvalue_error ‹_› |
    exact foldfparith_error ‹_› | exact foldintarith_error ‹_›

/-- `fold` fails only by panicking. -/
theorem fold_error {e : Halt} (h : fold T debug p code ins = .error e) : e = .panic := by
  unfold fold at h
  by_cases hf : foldsConst T code ins
  · rw [if_pos hf] at h
    split at h
    · cases hc : foldConst debug p ins.opcode ins.ty _ _ <;> rw [hc] at h <;> cases h
      exact foldConst_error hc
    · cases h; rfl
  rw [if_neg hf] at h
  -- past the constant arm only the debug check of `MOV` fails
  by_cases hs : swapsInputs T code ins
  · rw [if_pos hs] at h; cases h
  rw [if_neg hs] at h
  by_cases hz : isAddZero code ins
  · rw [if_pos hz] at h; cases h
  rw [if_neg hz] at h
  by_cases h1 : isMulOne code ins
  · rw [if_pos h1] at h; cases h
  rw [if_neg h1] at h
  by_cases h0 : isMulZero code ins
  · rw [if_pos h0] at h; cases h
  rw [if_neg h0] at h
  by_cases hm : ins.opcode = .MOV
  · rw [if_pos hm] at h; split at h <;> cases h; rfl
  · rw [if_neg hm] at h; cases h

/-! ## Builds

The debug build checks more and panics more, and otherwise computes what the release build
computes. -/

theorem foldConst_of_debug {op : Opcode} {ty : Ty} {left right c : Ins}
    (h : foldConst debug p op ty left right = .ok (p', c)) :
    foldConst false p op ty left right = .ok (p', c) := by
  rcases foldConst_ok h with ⟨hfl, l, r, v, hl, hr, hv, hn⟩ | ⟨hfl, l, r, v, hl, hr, hv, hn⟩
  · simp [foldConst, hfl, hl, hr, hv, hn]
  · simp [foldConst, hfl, hl, hr, foldintarith_of_debug hv, hn]

/-- A result of `fold` in a debug build is its result in a release build. -/
theorem fold_of_debug {r : Intern × FoldStatus} (h : fold T debug p code ins = .ok r) :
    fold T false p code ins = .ok r := by
  unfold fold at h ⊢
  by_cases hf : foldsConst T code ins
  · rw [if_pos hf] at h ⊢
    split at h
    · obtain ⟨i, hi, hst⟩ := map_done_eq_ok h
      rw [foldConst_of_debug hi]
      exact congrArg Except.ok (Prod.ext rfl hst.symm)
    · cases h
  rw [if_neg hf] at h ⊢
  by_cases hs : swapsInputs T code ins
  · rw [if_pos hs] at h ⊢; exact h
  rw [if_neg hs] at h ⊢
  by_cases hz : isAddZero code ins
  · rw [if_pos hz] at h ⊢; exact h
  rw [if_neg hz] at h ⊢
  by_cases h1 : isMulOne code ins
  · rw [if_pos h1] at h ⊢; exact h
  rw [if_neg h1] at h ⊢
  by_cases h0 : isMulZero code ins
  · rw [if_pos h0] at h ⊢; exact h
  rw [if_neg h0] at h ⊢
  by_cases hm : ins.opcode = .MOV
  · rw [if_pos hm] at h ⊢
    split at h
    · cases h
    · exact h
  · rw [if_neg hm] at h ⊢; exact h

theorem isConstAt_of_getElem? {v : Nat} {i : Ins} (h : code[v]? = some i) :
    isConstAt T code v = i.opcode.isConst T := by
  simp [isConstAt, h]

/-- After one swap no swap arm applies, so the loop around `fold` folds at most twice. -/
theorem swapsInputs_swapInputs (hf : foldsConst T code ins = false)
    (hs : swapsInputs T code ins) : swapsInputs T code ins.swapInputs = false := by
  unfold swapsInputs foldsConst at *
  simp only [Ins.opcode_swapInputs, Ins.a_swapInputs, Ins.b_swapInputs]
  have hc : ins.opcode.isComm = true := by simp_all
  have : ins.opcode.isArith = true := by
    revert hc; cases ins.opcode <;> simp [Opcode.isComm, Opcode.isArith]
  cases ha : isConstAt T code ins.a <;> cases hb : isConstAt T code ins.b <;> simp_all
  omega

theorem foldsConst_swapInputs : foldsConst T code ins.swapInputs = foldsConst T code ins := by
  simp only [foldsConst, Ins.opcode_swapInputs, Ins.a_swapInputs, Ins.b_swapInputs]
  cases isConstAt T code ins.a <;> simp

/-- `fold` of a swapped instruction never asks for another pass. -/
theorem fold_swapInputs_ne_again (h : fold T debug p code ins = .ok (p', .Again ins.swapInputs))
    {p'' : Intern} {i : Ins} : fold T debug p' code ins.swapInputs ≠ .ok (p'', .Again i) := by
  intro h'
  obtain ⟨-, -, hf, hs⟩ := fold_again h
  obtain ⟨-, -, -, hs'⟩ := fold_again h'
  rw [swapsInputs_swapInputs hf hs] at hs'
  cases hs'

/-! ## The constant arm at integer types -/

/-- `ADD` and `MUL` of `foldintarith` commute, overflow check included. -/
theorem foldintarith_swap {op : Opcode} (hc : op.isComm) (l r : BitVec 64) :
    foldintarith debug op l r = foldintarith debug op r l := by
  cases op <;> simp_all [Opcode.isComm, foldintarith, BitVec.add_comm, BitVec.mul_comm, Int.add_comm,
    Int.mul_comm]

theorem isConstAt_of_kintvalue {v : Nat} {i : Ins} {x : BitVec 64} (h : code[v]? = some i)
    (hx : kintvalue p i = .ok x) : isConstAt T code v := by
  rw [isConstAt_of_getElem? h]
  unfold kintvalue at hx
  split at hx <;> simp_all [Opcode.isConst]

/-- At an integer type, the constant arm folds the operands' `kintvalue`s with the 64-bit
`foldintarith`, whatever the width of the type, and reads back as its result. -/
theorem fold_int_const {left right : Ins} {x y r : BitVec 64} (hop : ins.opcode.isArith)
    (hty : ins.ty.isInt) (hl : code[ins.a]? = some left) (hr : code[ins.b]? = some right)
    (hlt : left.ty = ins.ty) (hrt : right.ty = ins.ty) (hx : kintvalue p left = .ok x)
    (hy : kintvalue p right = .ok y) (hv : foldintarith debug ins.opcode x y = .ok r) :
    ∃ p' c, fold T debug p code ins = .ok (p', .Done c) ∧ kintvalue p' c = .ok r := by
  have hf : foldsConst T code ins := by
    simp [foldsConst, hop, isConstAt_of_kintvalue hl hx, isConstAt_of_kintvalue hr hy]
  have hfl : ins.ty.isFloat = false := by revert hty; cases ins.ty <;> simp [Ty.isInt, Ty.isFloat]
  refine ⟨_, _, ?_, kintvalue_newkint p ins.ty r⟩
  simp [fold, hf, hl, hr, foldConst, hlt, hrt, hfl, hty, hx, hy, hv]

/-- `UDIV` of the `I32` constant `-1` by `2` divides the sign-extended bits as a `u64`. -/
theorem fold_int_const_udiv_i32 :
    ∃ p' c, fold OpTable.sample false ⟨[]⟩ [Ins.KINT .I32 (-1), Ins.KINT .I32 2]
        ⟨.UDIV, .I32, 0, 1, 0⟩ = .ok (p', .Done c) ∧ kintvalue p' c = .ok 0x7FFFFFFFFFFFFFFF :=
  fold_int_const rfl rfl rfl rfl rfl rfl rfl rfl rfl

/-- Arithmetic at the width of a type: `op` in the `w`-bit two's-complement arithmetic
(`w`-bit unsigned division for `UDIV`), sign-extended to 64 bits.  `fold` does not compute
this: it applies the 64-bit `foldintarith` whatever the type. -/
def wrapAtWidth (op : Opcode) (w : Nat) (x y : BitVec 64) : BitVec 64 :=
  let a := x.setWidth w
  let b := y.setWidth w
  let v : BitVec w := match op with
    | .ADD => a + b
    | .SUB => a - b
    | .MUL => a * b
    | .DIV => a.sdiv b
    | .UDIV => a / b
    | _ => 0
  v.signExtend 64

/-- `i32::MAX + 1` at `I32` folds to `2^31`, a `KINT64`, and not to the wrapped `i32::MIN`. -/
theorem fold_add_i32_max_unwrapped :
    ∃ p' c, fold OpTable.sample false ⟨[]⟩ [Ins.KINT .I32 0x7FFFFFFF, Ins.KINT .I32 1]
        ⟨.ADD, .I32, 0, 1, 0⟩ = .ok (p', .Done c) ∧
      kintvalue p' c = .ok 0x80000000 ∧ wrapAtWidth .ADD 32 0x7FFFFFFF 1 ≠ 0x80000000 :=
  ⟨_, _, rfl, rfl, by decide⟩

/-- `i64::MIN / -1` panics in every build. -/
theorem fold_div_min_neg_one_panics (debug : Bool) :
    fold OpTable.sample debug ⟨[BitVec.intMin 64]⟩ [Ins.KINT64 .I64 0, Ins.KINT .I64 (-1)]
      ⟨.DIV, .I64, 0, 1, 0⟩ = .error .panic := by
  cases debug <;> rfl

end Fhk5
