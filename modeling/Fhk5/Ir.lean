import Mathlib.Data.List.Basic

/-!
# Instructions, functions and the constant pool

The optimizer rewrites one function at a time.  A function is a code vector of
instructions, indexed by `InsId`, and an entry id.  An instruction is a fixed-width
record: an opcode, a result type and three operand slots `a`, `b`, `c`.  What a slot
holds depends on the opcode: a value input (the id of another instruction of the same
function), a control successor, or an immediate.  A 32-bit immediate is split across `b`
and `c`, and `Ins.bc` reads it back.

`ir.rs`, which defines the opcodes and their formats, is not among the sources.  The fold
names ten opcodes: the constants `KINT`, `KINT64`, `KFP64`, the move `MOV` and the six
arithmetic opcodes.  Their formats and flags are fixed here from the spec.  Every other
opcode is `op n`, and an `OpTable` gives its flags and the slots that hold its inputs and
control successors.  Every definition takes the table as an argument, so every theorem
holds for every opcode table.

The constant pool of `intern.rs` is missing too.  `Intern` models it from the spec as a
list of 8-byte words: interning a word returns the handle of an equal word if there is
one, and appends it otherwise.  So a word keeps its handle as the pool grows
(`Intern.intern_of_le`).

The operand and control slots are the edges of a function's graph.  `Func.Reach` is
reachability from the entry along both, `Func.InRange` says that every edge ends inside
the code vector, and `Func.Acyclic` asks for a numbering of the ids, below the code
length, that decreases along every operand edge: a topological order of the operand
graph.
-/

namespace Fhk5

/-! ## Opcodes, types and instructions -/

/-- `Opcode` of `ir.rs`: the ten opcodes the fold names, and `op n` for every other. -/
inductive Opcode where
  | KINT | KINT64 | KFP64 | MOV | ADD | SUB | MUL | DIV | UDIV | POW
  | op (n : Nat)
deriving DecidableEq, Repr

/-- `Type` of `ir.rs`: the six value types and `FX`, the type of control and void. -/
inductive Ty where
  | I8 | I16 | I32 | I64 | F32 | F64 | FX
deriving DecidableEq, Repr

/-- `(Type::F32|Type::F64).contains(ty)`. -/
def Ty.isFloat : Ty → Bool
  | .F32 | .F64 => true
  | _ => false

/-- `(Type::I8|Type::I16|Type::I32|Type::I64).contains(ty)`. -/
def Ty.isInt : Ty → Bool
  | .I8 | .I16 | .I32 | .I64 => true
  | _ => false

/-- The three operand slots of an instruction. -/
inductive Slot where
  | a | b | c
deriving DecidableEq, Repr

/-- `Ins`: an opcode, a result type and three operand slots. -/
structure Ins where
  /-- The opcode. -/
  opcode : Opcode
  /-- The result type. -/
  ty : Ty
  /-- Slot `a`. -/
  a : Nat
  /-- Slot `b`. -/
  b : Nat
  /-- Slot `c`. -/
  c : Nat
deriving DecidableEq, Repr

namespace Ins

/-- The content of a slot. -/
def get (ins : Ins) : Slot → Nat
  | .a => ins.a
  | .b => ins.b
  | .c => ins.c

/-- Overwrite a slot. -/
def set (ins : Ins) : Slot → Nat → Ins
  | .a, v => { ins with a := v }
  | .b, v => { ins with b := v }
  | .c, v => { ins with c := v }

@[simp] theorem get_set_self (ins : Ins) (s : Slot) (v : Nat) : (ins.set s v).get s = v := by
  cases s <;> rfl

@[simp] theorem get_set_of_ne (ins : Ins) {s t : Slot} (v : Nat) (h : t ≠ s) :
    (ins.set s v).get t = ins.get t := by
  cases s <;> cases t <;> first | rfl | exact absurd rfl h

@[simp] theorem opcode_set (ins : Ins) (s : Slot) (v : Nat) : (ins.set s v).opcode = ins.opcode := by
  cases s <;> rfl

@[simp] theorem ty_set (ins : Ins) (s : Slot) (v : Nat) : (ins.set s v).ty = ins.ty := by
  cases s <;> rfl

/-- Two instructions with the same opcode, type and slots are equal. -/
theorem ext_get {i j : Ins} (ho : i.opcode = j.opcode) (ht : i.ty = j.ty)
    (h : ∀ s, i.get s = j.get s) : i = j := by
  cases i; cases j
  have := h .a; have := h .b; have := h .c
  simp_all [get]

/-- `Ins::bc`: the 32-bit immediate split across `b` and `c`. -/
def bc (ins : Ins) : Nat := ins.b + 65536 * ins.c

/-- `Ins::KINT(ty, v)`: a 32-bit integer constant held in the instruction. -/
def KINT (ty : Ty) (v : BitVec 32) : Ins := ⟨.KINT, ty, 0, v.toNat % 65536, v.toNat / 65536⟩

/-- `Ins::KINT64(ty, h)`: a 64-bit integer constant at pool handle `h`. -/
def KINT64 (ty : Ty) (h : Nat) : Ins := ⟨.KINT64, ty, 0, h % 65536, h / 65536⟩

/-- `Ins::KFP64(ty, h)`: a 64-bit float constant at pool handle `h`. -/
def KFP64 (ty : Ty) (h : Nat) : Ins := ⟨.KFP64, ty, 0, h % 65536, h / 65536⟩

@[simp] theorem opcode_KINT (ty : Ty) (v : BitVec 32) : (KINT ty v).opcode = .KINT := rfl

@[simp] theorem opcode_KINT64 (ty : Ty) (h : Nat) : (KINT64 ty h).opcode = .KINT64 := rfl

@[simp] theorem opcode_KFP64 (ty : Ty) (h : Nat) : (KFP64 ty h).opcode = .KFP64 := rfl

@[simp] theorem ty_KINT (ty : Ty) (v : BitVec 32) : (KINT ty v).ty = ty := rfl

@[simp] theorem ty_KINT64 (ty : Ty) (h : Nat) : (KINT64 ty h).ty = ty := rfl

@[simp] theorem ty_KFP64 (ty : Ty) (h : Nat) : (KFP64 ty h).ty = ty := rfl

@[simp] theorem bc_KINT (ty : Ty) (v : BitVec 32) : (KINT ty v).bc = v.toNat := by
  simp only [bc, KINT]; omega

@[simp] theorem bc_KINT64 (ty : Ty) (h : Nat) : (KINT64 ty h).bc = h := by
  simp only [bc, KINT64]; omega

@[simp] theorem bc_KFP64 (ty : Ty) (h : Nat) : (KFP64 ty h).bc = h := by
  simp only [bc, KFP64]; omega

end Ins

/-! ## The opcode table -/

/-- What `ir.rs` says about the opcodes the fold does not name. -/
structure OpTable where
  /-- `Opcode::is_const` of `op n`. -/
  isConst : Nat → Bool
  /-- `Opcode::is_control` of `op n`. -/
  isControl : Nat → Bool
  /-- `Opcode::is_cse`, of every opcode. -/
  isCse : Opcode → Bool
  /-- The slots of `op n` that hold value inputs, in the order of `inputs_mut`. -/
  inputs : Nat → List Slot
  /-- The slots of `op n` that hold control successors. -/
  controls : Nat → List Slot
  /-- A slot holds one kind of operand. -/
  nodup : ∀ n, (inputs n ++ controls n).Nodup
  /-- An opcode that carries control successors is a control opcode. -/
  isControl_of_controls : ∀ n, controls n ≠ [] → isControl n = true

variable (T : OpTable)

/-- `Opcode::is_const`. -/
def Opcode.isConst : Opcode → Bool
  | .KINT | .KINT64 | .KFP64 => true
  | .op n => T.isConst n
  | _ => false

/-- `Opcode::is_control`. -/
def Opcode.isControl : Opcode → Bool
  | .op n => T.isControl n
  | _ => false

/-- `Opcode::is_cse`. -/
def Opcode.isCse (op : Opcode) : Bool := T.isCse op

/-- The input slots of an opcode: none for constants, `a` for `MOV`, `a` and `b` for the
arithmetic opcodes. -/
def Opcode.inputs : Opcode → List Slot
  | .KINT | .KINT64 | .KFP64 => []
  | .MOV => [.a]
  | .op n => T.inputs n
  | _ => [.a, .b]

/-- The control slots of an opcode. -/
def Opcode.controls : Opcode → List Slot
  | .op n => T.controls n
  | _ => []

theorem Opcode.nodup_inputs_append_controls (op : Opcode) :
    (op.inputs T ++ op.controls T).Nodup := by
  cases op <;> simp [inputs, controls, T.nodup]

theorem Opcode.isControl_of_controls {op : Opcode} (h : op.controls T ≠ []) :
    op.isControl T = true := by
  cases op <;> simp_all [controls, isControl, T.isControl_of_controls]

/-- A small opcode table for examples: `op 0` is a return with one input, `op 1` a jump
with one control successor, `op 2` a branch with an input and two successors, and `op 3`
a parameter, with only an immediate.  Only the parameter is `is_cse` among them. -/
def OpTable.sample : OpTable where
  isConst _ := false
  isControl n := n == 1 || n == 2
  isCse op := match op with
    | .op n => n == 3
    | _ => true
  inputs n := match n with
    | 0 | 2 => [.a]
    | _ => []
  controls n := match n with
    | 1 => [.a]
    | 2 => [.b, .c]
    | _ => []
  nodup n := by rcases n with _ | _ | _ | n <;> simp
  isControl_of_controls n := by rcases n with _ | _ | _ | n <;> simp

/-- No `is_cse` opcode carries control slots.  `fixup` rewrites only control slots, so it
then leaves every `is_cse` instruction as `cse_map` saw it. -/
def OpTable.CseNoControls : Prop := ∀ op : Opcode, op.isCse T → op.controls T = []

/-- In the sample table only the parameter, with no control slot, is `is_cse` among the
table's opcodes. -/
theorem OpTable.sample_cseNoControls : OpTable.sample.CseNoControls := fun op h => by
  cases op with
  | op n =>
    obtain rfl : n = 3 := by simpa [Opcode.isCse, OpTable.sample] using h
    rfl
  | _ => rfl

namespace Ins

/-- `Ins::inputs`: the value inputs. -/
def inputs (ins : Ins) : List Nat := (ins.opcode.inputs T).map ins.get

/-- `Ins::controls`: the control successors. -/
def controls (ins : Ins) : List Nat := (ins.opcode.controls T).map ins.get

/-- The edges out of an instruction: its inputs, then its control successors. -/
def edges (ins : Ins) : List Nat := ins.inputs T ++ ins.controls T

/-- Rewrite the listed slots through `g`, left to right. -/
def mapSlots (g : Nat → Nat) : List Slot → Ins → Ins
  | [], ins => ins
  | s :: ss, ins => mapSlots g ss (ins.set s (g (ins.get s)))

@[simp] theorem opcode_mapSlots (g : Nat → Nat) (ss : List Slot) (ins : Ins) :
    (mapSlots g ss ins).opcode = ins.opcode := by
  induction ss generalizing ins <;> simp_all [mapSlots]

@[simp] theorem ty_mapSlots (g : Nat → Nat) (ss : List Slot) (ins : Ins) :
    (mapSlots g ss ins).ty = ins.ty := by
  induction ss generalizing ins <;> simp_all [mapSlots]

/-- `mapSlots` over distinct slots rewrites exactly those slots. -/
theorem get_mapSlots (g : Nat → Nat) {ss : List Slot} (hss : ss.Nodup) (ins : Ins) (t : Slot) :
    (mapSlots g ss ins).get t = if t ∈ ss then g (ins.get t) else ins.get t := by
  induction ss generalizing ins with
  | nil => simp [mapSlots]
  | cons s ss ih =>
    obtain ⟨hs, hss⟩ := List.nodup_cons.mp hss
    rw [mapSlots, ih hss]
    by_cases hts : t = s
    · subst hts; simp [hs]
    · simp [hts, get_set_of_ne _ _ hts]

end Ins

/-! ## Functions -/

/-- `Func`: the code vector and the entry.  The other fields of `Func` are not read by the
fold. -/
structure Func where
  /-- The code, indexed by `InsId`. -/
  code : List Ins
  /-- The entry instruction. -/
  entry : Nat
deriving DecidableEq, Repr

namespace Func

/-- Every operand and control id of the code is a valid index. -/
def InRange (f : Func) : Prop := ∀ ins ∈ f.code, ∀ x ∈ ins.edges T, x < f.code.length

instance (f : Func) : Decidable (f.InRange T) :=
  inferInstanceAs (Decidable (∀ ins ∈ f.code, ∀ x ∈ ins.edges T, x < f.code.length))

/-- The operand graph has a topological order: a numbering of the ids below the code length
that decreases along every operand edge. -/
def Acyclic (f : Func) : Prop :=
  ∃ rank : Nat → Nat, ∀ id, ∀ ins, f.code[id]? = some ins →
    rank id < f.code.length ∧ ∀ x ∈ ins.inputs T, rank x < rank id

/-- Reachability from the entry along operand and control edges. -/
inductive Reach (f : Func) : Nat → Prop where
  | entry : Reach f f.entry
  | edge {id x : Nat} {ins : Ins} : Reach f id → f.code[id]? = some ins → x ∈ ins.edges T →
      Reach f x

/-- Operands come before their users, as in the code the fold produces. -/
def Topo (f : Func) : Prop :=
  ∀ k (hk : k < f.code.length), ∀ x ∈ (f.code[k]).inputs T, x < k

instance (f : Func) : Decidable (f.Topo T) := Nat.decidableBallLT _ _

/-- In code in order, the inputs of an instruction come before it. -/
theorem Topo.lt {f : Func} (h : f.Topo T) {k : Nat} {ins : Ins} (hk : f.code[k]? = some ins) :
    ∀ x ∈ ins.inputs T, x < k := by
  obtain ⟨hlt, rfl⟩ := List.getElem?_eq_some_iff.mp hk
  exact h k hlt

/-- Code in order is acyclic, ranked by index. -/
theorem Topo.acyclic {f : Func} (h : f.Topo T) : f.Acyclic T :=
  ⟨fun k => k, fun _ _ hk => ⟨(List.getElem?_eq_some_iff.mp hk).1, h.lt T hk⟩⟩

/-- The reachable ids lie in every set that holds the entry and is closed under edges. -/
theorem Reach.mem_of_closed {f : Func} (S : Nat → Prop) (he : S f.entry)
    (hc : ∀ id ins x, S id → f.code[id]? = some ins → x ∈ ins.edges T → S x) {x : Nat}
    (h : f.Reach T x) : S x := by
  induction h with
  | entry => exact he
  | edge _ hins hx ih => exact hc _ _ _ ih hins hx

/-- The function `v0 = KINT 2; v1 = KINT 3; v2 = ADD v0 v1; RET v2` over `OpTable.sample`,
whose entry is the return. -/
def sample : Func :=
  ⟨[Ins.KINT .I32 2, Ins.KINT .I32 3, ⟨.ADD, .I32, 0, 1, 0⟩, ⟨.op 0, .FX, 2, 0, 0⟩], 3⟩

/-- The function `v0 = PARAM 0; v1 = PARAM 1; v2 = ADD v0 v1; v3 = ADD v0 v1;
v4 = SUB v2 v3; RET v4` over `OpTable.sample`, with two equal additions. -/
def sampleCse : Func :=
  ⟨[⟨.op 3, .I32, 0, 0, 0⟩, ⟨.op 3, .I32, 1, 0, 0⟩, ⟨.ADD, .I32, 0, 1, 0⟩, ⟨.ADD, .I32, 0, 1, 0⟩,
    ⟨.SUB, .I32, 2, 3, 0⟩, ⟨.op 0, .FX, 4, 0, 0⟩], 5⟩

end Func

/-! ## The constant pool -/

/-- Modelled from the spec: the constant pool of `intern.rs`, a content-addressed arena.
Only its 8-byte words are read by the fold, so it is a list of words and a handle is an
index. -/
structure Intern where
  /-- The interned words, oldest first. -/
  words : List (BitVec 64)
deriving DecidableEq, Repr

namespace Intern

/-- Modelled from the spec: interning equal bytes returns equal handles. -/
def intern (p : Intern) (w : BitVec 64) : Intern × Nat :=
  if w ∈ p.words then (p, p.words.indexOf w) else (⟨p.words ++ [w]⟩, p.words.length)

/-- `bump()[h]`: the word at a handle; `none` where the source would panic. -/
def read (p : Intern) (h : Nat) : Option (BitVec 64) := p.words[h]?

/-- `p` is a prefix of `q`: every handle of `p` reads the same in `q`. -/
def Le (p q : Intern) : Prop := p.words <+: q.words

theorem Le.refl (p : Intern) : p.Le p := List.prefix_refl _

theorem Le.trans {p q r : Intern} (h₁ : p.Le q) (h₂ : q.Le r) : p.Le r := List.IsPrefix.trans h₁ h₂

theorem Le.read {p q : Intern} (h : p.Le q) {k : Nat} {w : BitVec 64} (hk : p.read k = some w) :
    q.read k = some w := by
  obtain ⟨t, ht⟩ := h
  simp only [Intern.read, ← ht] at *
  rw [List.getElem?_append_left (List.getElem?_eq_some_iff.mp hk).1, hk]

theorem le_intern (p : Intern) (w : BitVec 64) : p.Le (p.intern w).1 := by
  unfold intern; split
  · exact Le.refl p
  · exact List.prefix_append _ _

theorem read_intern (p : Intern) (w : BitVec 64) : (p.intern w).1.read (p.intern w).2 = some w := by
  unfold intern read; split
  · simpa [← List.get?_eq_getElem?] using List.indexOf_get? ‹_›
  · simp

theorem mem_intern (p : Intern) (w : BitVec 64) : w ∈ (p.intern w).1.words := by
  unfold intern; split
  · assumption
  · simp

/-- The handle of a word is its first index in the pool interning returns. -/
theorem intern_snd (p : Intern) (w : BitVec 64) : (p.intern w).2 = (p.intern w).1.words.indexOf w := by
  unfold intern; split
  · rfl
  · simp [List.indexOf_append_of_not_mem ‹_›]

/-- Interning a word again, into a pool that extends the one its first interning returned,
leaves the pool alone and returns the same handle. -/
theorem intern_of_le {p q : Intern} {w : BitVec 64} (h : (p.intern w).1.Le q) :
    q.intern w = (q, (p.intern w).2) := by
  have hq : w ∈ q.words := List.IsPrefix.mem (mem_intern p w) h
  obtain ⟨t, ht⟩ := h
  have hidx : q.words.indexOf w = (p.intern w).2 := by
    rw [← ht, List.indexOf_append_of_mem (mem_intern p w), intern_snd]
  rw [intern, if_pos hq, hidx]

end Intern

end Fhk5
