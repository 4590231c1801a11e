import Fhk5.Fold.Rerun

/-!
# What the fold preserves: the values of the code

A value semantics for code, computed bottom-up over operands.  A constant denotes what
`kintvalue` reads, `ADD` to `UDIV` the `i64` operations of `foldintarith` in a build without
overflow checks, `MOV` its operand, and any other instruction `F` of its opcode, type and
immediates (`Ins.imm`) and of the values of its inputs, for one function `F` shared by the
old and the new code.  `Value` is a relation: a division by zero has no value, and neither
has an instruction an input of which has none.  It is deterministic (`Value.det`).

Which opcodes are read as constants is a parameter `lit`.  The fold reads `KINT`, `KINT64`
and `KFP64` alike with `kintvalue` (`Opcode.isLiteral`).  Reading only `KINT` and `KINT64`
so (`Opcode.isKint`), and leaving `KFP64` to `F`, is not preserved: an integer operation on a
`KFP64` is folded with the `f64 as i64` of its float (`Fold.run_reads_kfp64_as_int`).

`Fold.run_preserves_values`: on an acyclic function whose arithmetic is not float-typed,
a value of a reachable id in the old code is the value of its new id in the new code, and a
reachable control instruction is kept with every edge renamed through `old_new`.  The new
code may have values where the old has none: `x * 0` folds to `0` whatever `x` is.

`Denotes` is one step of `Value`, over a relation that gives the values of the inputs.
Each arm of `fold` keeps what an instruction denotes (`fold_new_sound`, `fold_again_sound`,
`fold_done_sound`), hence the loop around `fold` does (`foldLoop_sound`), a node step keeps
the invariant `Fcx.Sound`, and the loop of `Fold::run` does (`bfs_nodeStep_induct`).
-/

namespace Fhk5

section
variable (T : OpTable)

/-- `ADD|SUB|MUL|DIV|UDIV`: the opcodes `foldintarith` computes. -/
def Opcode.isIntArith : Opcode → Bool
  | .ADD | .SUB | .MUL | .DIV | .UDIV => true
  | _ => false

/-- `KINT|KINT64`: the integer constants. -/
def Opcode.isKint : Opcode → Bool
  | .KINT | .KINT64 => true
  | _ => false

/-- The opcode, type and immediates of an instruction: its slots that hold edges cleared. -/
def Ins.imm (ins : Ins) : Ins :=
  ins.mapSlots (fun _ => 0) (ins.opcode.inputs T ++ ins.opcode.controls T)

/-- The values of the ids of `code`.  The constants of `lit` are read with `kintvalue` from
the pool `p`; any other instruction that is not arithmetic or a `MOV` is `F` of its
immediates and of the values of its inputs, in order. -/
inductive Value (F : Ins → List (BitVec 64) → BitVec 64) (lit : Opcode → Bool) (p : Intern)
    (code : List Ins) : Nat → BitVec 64 → Prop where
  | const {id : Nat} {ins : Ins} {v : BitVec 64} : code[id]? = some ins → lit ins.opcode →
      kintvalue p ins = .ok v → Value F lit p code id v
  | arith {id : Nat} {ins : Ins} {va vb v : BitVec 64} : code[id]? = some ins →
      lit ins.opcode = false → ins.opcode.isIntArith → Value F lit p code ins.a va →
      Value F lit p code ins.b vb → foldintarith false ins.opcode va vb = .ok v →
      Value F lit p code id v
  | mov {id : Nat} {ins : Ins} {v : BitVec 64} : code[id]? = some ins →
      lit ins.opcode = false → ins.opcode = .MOV → Value F lit p code ins.a v →
      Value F lit p code id v
  | other {id : Nat} {ins : Ins} {vs : List (BitVec 64)} : code[id]? = some ins →
      lit ins.opcode = false → ins.opcode.isIntArith = false → ins.opcode ≠ .MOV →
      vs.length = (ins.inputs T).length →
      (∀ (k x : Nat) (w : BitVec 64), (ins.inputs T)[k]? = some x → vs[k]? = some w →
        Value F lit p code x w) →
      Value F lit p code id (F (ins.imm T) vs)

/-- What an instruction denotes when `val` gives the values of ids: one step of `Value`. -/
def Denotes (F : Ins → List (BitVec 64) → BitVec 64) (lit : Opcode → Bool) (p : Intern)
    (val : Nat → BitVec 64 → Prop) (ins : Ins) (v : BitVec 64) : Prop :=
  (lit ins.opcode ∧ kintvalue p ins = .ok v) ∨
  (lit ins.opcode = false ∧ ins.opcode.isIntArith ∧
    ∃ va vb, val ins.a va ∧ val ins.b vb ∧ foldintarith false ins.opcode va vb = .ok v) ∨
  (lit ins.opcode = false ∧ ins.opcode = .MOV ∧ val ins.a v) ∨
  (lit ins.opcode = false ∧ ins.opcode.isIntArith = false ∧ ins.opcode ≠ .MOV ∧
    ∃ vs : List (BitVec 64), vs.length = (ins.inputs T).length ∧
      (∀ (k x : Nat) (w : BitVec 64), (ins.inputs T)[k]? = some x → vs[k]? = some w → val x w) ∧
      v = F (ins.imm T) vs)

end

variable {T : OpTable}

/-! ## Opcodes and immediates -/

namespace Opcode

theorem isArith_of_isIntArith {op : Opcode} (h : op.isIntArith) : op.isArith := by
  cases op <;> simp_all [isIntArith, isArith]

theorem isIntArith_of_isComm {op : Opcode} (h : op.isComm) : op.isIntArith := by
  cases op <;> simp_all [isIntArith, isComm]

theorem isLiteral_eq_false_of_isArith {op : Opcode} (h : op.isArith) : op.isLiteral = false := by
  cases op <;> simp_all [isLiteral, isArith]

theorem ne_mov_of_isIntArith {op : Opcode} (h : op.isIntArith) : op ≠ .MOV := by
  rintro rfl; cases h

theorem eq_op_of_isControl {op : Opcode} (h : op.isControl T) : ∃ k, op = .op k := by
  cases op <;> simp_all [isControl]

end Opcode

/-- `kintvalue` reads only the three constants. -/
theorem isLiteral_of_kintvalue {p : Intern} {ins : Ins} {v : BitVec 64}
    (h : kintvalue p ins = .ok v) : ins.opcode.isLiteral := by
  unfold kintvalue at h
  split at h <;> simp_all [Opcode.isLiteral]

/-- `foldintarith` computes only the five integer opcodes. -/
theorem isIntArith_of_foldintarith {debug : Bool} {op : Opcode} {l r v : BitVec 64}
    (h : foldintarith debug op l r = .ok v) : op.isIntArith := by
  cases op <;> simp_all [foldintarith, Opcode.isIntArith]

/-- Two instructions that agree outside their edge slots have the same immediates. -/
theorem Ins.imm_eq_of_get {ins j : Ins} (ho : j.opcode = ins.opcode) (ht : j.ty = ins.ty)
    (h : ∀ sl, sl ∉ ins.opcode.inputs T ++ ins.opcode.controls T → j.get sl = ins.get sl) :
    j.imm T = ins.imm T := by
  have hnd := ins.opcode.nodup_inputs_append_controls T
  refine Ins.ext_get (by simp [Ins.imm, ho]) (by simp [Ins.imm, ht]) fun sl => ?_
  simp only [Ins.imm, ho, Ins.get_mapSlots _ hnd]
  by_cases hsl : sl ∈ ins.opcode.inputs T ++ ins.opcode.controls T
  · simp [hsl]
  · simp only [hsl, if_false]; exact h sl hsl

/-- A constant is its own immediates. -/
theorem Ins.imm_of_isLiteral {ins : Ins} (h : ins.opcode.isLiteral) : ins.imm T = ins := by
  simp [Ins.imm, Opcode.inputs_of_isLiteral h, (Opcode.controls_of_ne_op (T := T) (Opcode.ne_op_of_isLiteral h)).2,
    Ins.mapSlots]

theorem Ins.Renamed.imm_eq {o : List (Option Nat)} {ins j : Ins} (h : ins.Renamed T o j) :
    j.imm T = ins.imm T :=
  Ins.imm_eq_of_get h.opcode h.ty fun sl hsl => h.other sl fun h' => hsl (List.mem_append_left _ h')

theorem Ins.Fixed.imm_eq {o : List (Option Nat)} {ins j : Ins} (h : ins.Fixed T o j) :
    j.imm T = ins.imm T :=
  Ins.imm_eq_of_get h.opcode h.ty fun sl hsl => h.other sl fun h' => hsl (List.mem_append_right _ h')

/-! ## Integer arithmetic -/

section
variable {op : Opcode} {l r v : BitVec 64}

theorem foldintarith_add_zero (l : BitVec 64) : foldintarith false .ADD l 0 = .ok l := by
  simp [foldintarith]

theorem foldintarith_mul_zero (l : BitVec 64) : foldintarith false .MUL l 0 = .ok 0 := by
  simp [foldintarith]

/-- `x * 1`, `x / 1` and the unsigned `x / 1` are `x`. -/
theorem foldintarith_one (h : op = .MUL ∨ op = .DIV ∨ op = .UDIV) (l : BitVec 64) :
    foldintarith false op l 1 = .ok l := by
  rcases h with rfl | rfl | rfl
  · simp [foldintarith]
  · have : (1 : BitVec 64) ≠ -1 := by decide
    simp [foldintarith, this, BitVec.sdiv_one]
  · simp [foldintarith, BitVec.udiv_one]

end

/-! ## `Denotes` -/

section
variable {F : Ins → List (BitVec 64) → BitVec 64} {lit : Opcode → Bool} {p p' : Intern}
  {val val' : Nat → BitVec 64 → Prop} {ins j : Ins} {v : BitVec 64}

theorem denotes_of_lit (hl : lit ins.opcode) : Denotes T F lit p val ins v ↔ kintvalue p ins = .ok v := by
  simp [Denotes, hl]

theorem denotes_of_isIntArith (hl : lit ins.opcode = false) (ha : ins.opcode.isIntArith) :
    Denotes T F lit p val ins v ↔
      ∃ va vb, val ins.a va ∧ val ins.b vb ∧ foldintarith false ins.opcode va vb = .ok v := by
  simp [Denotes, hl, ha, Opcode.ne_mov_of_isIntArith ha]

theorem denotes_of_mov (hl : lit ins.opcode = false) (hm : ins.opcode = .MOV) :
    Denotes T F lit p val ins v ↔ val ins.a v := by
  have hl' : lit .MOV = false := hm ▸ hl
  simp [Denotes, hm, hl', Opcode.isIntArith]

theorem denotes_of_other (hl : lit ins.opcode = false) (ha : ins.opcode.isIntArith = false)
    (hm : ins.opcode ≠ .MOV) :
    Denotes T F lit p val ins v ↔ ∃ vs : List (BitVec 64), vs.length = (ins.inputs T).length ∧
      (∀ (k x : Nat) (w : BitVec 64), (ins.inputs T)[k]? = some x → vs[k]? = some w → val x w) ∧
      v = F (ins.imm T) vs := by
  simp [Denotes, hl, ha, hm]

theorem Denotes.mono (hval : ∀ x w, val x w → val' x w) (h : Denotes T F lit p val ins v) :
    Denotes T F lit p val' ins v := by
  rcases h with h | ⟨hl, ha, va, vb, hva, hvb, hv⟩ | ⟨hl, hm, hva⟩ | ⟨hl, ha, hm, vs, hlen, hvs, hv⟩
  · exact .inl h
  · exact .inr (.inl ⟨hl, ha, va, vb, hval _ _ hva, hval _ _ hvb, hv⟩)
  · exact .inr (.inr (.inl ⟨hl, hm, hval _ _ hva⟩))
  · exact .inr (.inr (.inr ⟨hl, ha, hm, vs, hlen, fun k x w hx hw => hval _ _ (hvs k x w hx hw), hv⟩))

/-- A larger pool reads the same constants. -/
theorem Denotes.pool (hp : p.Le p') (h : Denotes T F lit p val ins v) : Denotes T F lit p' val ins v :=
  h.imp_left (And.imp_right (kintvalue_of_le hp))

/-- What an instruction denotes depends only on its opcode, inputs and immediates. -/
theorem Denotes.congr (ho : j.opcode = ins.opcode) (hin : j.inputs T = ins.inputs T)
    (him : j.imm T = ins.imm T) (h : Denotes T F lit p val ins v) : Denotes T F lit p val j v := by
  rcases h with ⟨hl, hk⟩ | ⟨hl, ha, hr⟩ | ⟨hl, hm, hr⟩ | ⟨hl, ha, hm, vs, hlen, hvs, rfl⟩
  · have hi := isLiteral_of_kintvalue hk
    rw [← Ins.imm_of_isLiteral hi, ← him, Ins.imm_of_isLiteral (ho ▸ hi)] at hk
    exact .inl ⟨ho ▸ hl, hk⟩
  · rw [Ins.inputs_of_isArith (Opcode.isArith_of_isIntArith ha),
      Ins.inputs_of_isArith (ho ▸ Opcode.isArith_of_isIntArith ha)] at hin
    simp only [List.cons.injEq, and_true] at hin
    exact .inr (.inl ⟨ho ▸ hl, ho ▸ ha, by rw [hin.1, hin.2, ho]; exact hr⟩)
  · have ha : j.a = ins.a := by simpa [Ins.inputs, ho, hm, Opcode.inputs, Ins.get] using hin
    exact .inr (.inr (.inl ⟨ho ▸ hl, ho ▸ hm, ha ▸ hr⟩))
  · exact .inr (.inr (.inr ⟨ho ▸ hl, ho ▸ ha, ho ▸ hm, vs, hin ▸ hlen, hin ▸ hvs, by rw [him]⟩))

/-- Renaming the inputs of an instruction keeps what it denotes, when each renamed input
has the values of the old one. -/
theorem Denotes.renamed {o : List (Option Nat)} (hp : p.Le p') (hr : ins.Renamed T o j)
    (hval : ∀ {x m : Nat} {w : BitVec 64}, o[x]? = some (some m) → val x w → val' m w)
    (h : Denotes T F lit p val ins v) : Denotes T F lit p' val' j v := by
  rcases h with ⟨hl, hk⟩ | ⟨hl, ha, va, vb, hva, hvb, hv⟩ | ⟨hl, hm, hva⟩ |
    ⟨hl, ha, hm, vs, hlen, hvs, rfl⟩
  · rw [hr.eq_of_inputs (Opcode.inputs_of_isLiteral (isLiteral_of_kintvalue hk))]
    exact .inl ⟨hl, kintvalue_of_le hp hk⟩
  · refine .inr (.inl ⟨hr.opcode ▸ hl, hr.opcode ▸ ha, ?_⟩)
    have hin := Opcode.inputs_of_isArith (T := T) (Opcode.isArith_of_isIntArith ha)
    rcases hr.inputs with h' | ⟨hc, ha', hb'⟩
    · exact ⟨va, vb, hval (h' .a (by simp [hin])) hva, hval (h' .b (by simp [hin])) hvb,
        hr.opcode ▸ hv⟩
    · exact ⟨vb, va, hval hb' hvb, hval ha' hva, by rw [hr.opcode, ← foldintarith_swap hc]; exact hv⟩
  · refine .inr (.inr (.inl ⟨hr.opcode ▸ hl, hr.opcode ▸ hm, ?_⟩))
    have h' := hr.inputs.resolve_right fun h => by simp [hm, Opcode.isComm] at h
    exact hval (h' .a (by simp [hm, Opcode.inputs])) hva
  · have h' := hr.inputs.resolve_right fun h => by simp [Opcode.isIntArith_of_isComm h.1] at ha
    refine .inr (.inr (.inr ⟨hr.opcode ▸ hl, hr.opcode ▸ ha, hr.opcode ▸ hm, vs,
      by simp [Ins.inputs, hr.opcode, hlen], fun k y w hy hw => ?_, by rw [hr.imm_eq]⟩))
    simp only [Ins.inputs, hr.opcode, List.getElem?_map, Option.map_eq_some'] at hy
    obtain ⟨sl, hsl, rfl⟩ := hy
    exact hval (h' sl (List.getElem?_mem hsl)) (hvs k _ w (by simp [Ins.inputs, hsl]) hw)

end

/-! ## `Value` -/

section
variable {F : Ins → List (BitVec 64) → BitVec 64} {lit : Opcode → Bool} {p p' : Intern}
  {code code' : List Ins} {id : Nat} {v : BitVec 64}

/-- An id has a value when its instruction denotes it over the values of the code. -/
theorem value_iff : Value T F lit p code id v ↔
    ∃ ins, code[id]? = some ins ∧ Denotes T F lit p (Value T F lit p code) ins v := by
  constructor
  · rintro (⟨h, hl, hk⟩ | ⟨h, hl, ha, hva, hvb, hv⟩ | ⟨h, hl, hm, hva⟩ | ⟨h, hl, ha, hm, hlen, hvs⟩)
    · exact ⟨_, h, .inl ⟨hl, hk⟩⟩
    · exact ⟨_, h, .inr (.inl ⟨hl, ha, _, _, hva, hvb, hv⟩)⟩
    · exact ⟨_, h, .inr (.inr (.inl ⟨hl, hm, hva⟩))⟩
    · exact ⟨_, h, .inr (.inr (.inr ⟨hl, ha, hm, _, hlen, hvs, rfl⟩))⟩
  · rintro ⟨ins, h, ⟨hl, hk⟩ | ⟨hl, ha, va, vb, hva, hvb, hv⟩ | ⟨hl, hm, hva⟩ |
      ⟨hl, ha, hm, vs, hlen, hvs, rfl⟩⟩
    exacts [.const h hl hk, .arith h hl ha hva hvb hv, .mov h hl hm hva, .other h hl ha hm hlen hvs]

/-- The induction over `Value`, one `Denotes` step at a time. -/
theorem Value.denotes_induct (Q : Nat → BitVec 64 → Prop)
    (hQ : ∀ {id ins v}, code[id]? = some ins → Denotes T F lit p Q ins v → Q id v)
    (h : Value T F lit p code id v) : Q id v := by
  induction h with
  | const hins hl hk => exact hQ hins (.inl ⟨hl, hk⟩)
  | arith hins hl ha _ _ hv iha ihb => exact hQ hins (.inr (.inl ⟨hl, ha, _, _, iha, ihb, hv⟩))
  | mov hins hl hm _ ih => exact hQ hins (.inr (.inr (.inl ⟨hl, hm, ih⟩)))
  | other hins hl ha hm hlen _ ih => exact hQ hins (.inr (.inr (.inr ⟨hl, ha, hm, _, hlen, ih, rfl⟩)))

theorem getElem?_of_prefix {α : Type} {l l' : List α} (h : l <+: l') {k : Nat} {a : α}
    (hk : l[k]? = some a) : l'[k]? = some a := by
  obtain ⟨t, rfl⟩ := h
  rw [List.getElem?_append_left (List.getElem?_eq_some_iff.mp hk).1, hk]

/-- Code that only grows, over a pool that only grows, keeps its values. -/
theorem Value.mono (hp : p.Le p') (hc : code <+: code') (h : Value T F lit p code id v) :
    Value T F lit p' code' id v :=
  h.denotes_induct _ fun hins hd => value_iff.mpr ⟨_, getElem?_of_prefix hc hins, hd.pool hp⟩

/-- Fixing up control slots keeps the values of the code. -/
theorem Value.of_fixed {o : List (Option Nat)} (hlen : code'.length = code.length)
    (hrel : ∀ (k : Nat) (ins' : Ins), code'[k]? = some ins' →
      ∃ ins, code[k]? = some ins ∧ ins.Fixed T o ins')
    (h : Value T F lit p code id v) : Value T F lit p code' id v := by
  refine h.denotes_induct _ fun {k ins _} hins hd => ?_
  obtain ⟨ins', hk'⟩ : ∃ ins', code'[k]? = some ins' :=
    Option.isSome_iff_exists.mp (by simp [hlen, (List.getElem?_eq_some_iff.mp hins).1])
  obtain ⟨ins₀, h₀, hf⟩ := hrel k ins' hk'
  cases hins.symm.trans h₀
  exact value_iff.mpr ⟨ins', hk', hd.congr hf.opcode hf.inputs_eq hf.imm_eq⟩

/-- An id has at most one value. -/
theorem Value.det {v' : BitVec 64} (h : Value T F lit p code id v) (h' : Value T F lit p code id v') :
    v = v' := by
  revert v'
  refine h.denotes_induct (fun id v => ∀ {v'}, Value T F lit p code id v' → v = v') ?_
  intro id ins v hins hd v' h'
  obtain ⟨ins', hins', hd'⟩ := value_iff.mp h'
  cases hins.symm.trans hins'
  by_cases hl : lit ins.opcode
  · exact Except.ok.inj (((denotes_of_lit hl).mp hd).symm.trans ((denotes_of_lit hl).mp hd'))
  replace hl : lit ins.opcode = false := by simpa using hl
  by_cases ha : ins.opcode.isIntArith
  · obtain ⟨va, vb, hva, hvb, hv⟩ := (denotes_of_isIntArith hl ha).mp hd
    obtain ⟨va', vb', hva', hvb', hv'⟩ := (denotes_of_isIntArith hl ha).mp hd'
    rw [hva hva', hvb hvb', hv'] at hv
    exact (Except.ok.inj hv).symm
  replace ha : ins.opcode.isIntArith = false := by simpa using ha
  by_cases hm : ins.opcode = .MOV
  · exact ((denotes_of_mov hl hm).mp hd) ((denotes_of_mov hl hm).mp hd')
  obtain ⟨vs, hlen, hvs, rfl⟩ := (denotes_of_other hl ha hm).mp hd
  obtain ⟨vs', hlen', hvs', rfl⟩ := (denotes_of_other hl ha hm).mp hd'
  congr 1
  refine List.ext_getElem? fun k => ?_
  rcases hk : (ins.inputs T)[k]? with _ | x
  · have := List.getElem?_eq_none_iff.mp hk
    rw [List.getElem?_eq_none_iff.mpr (by omega), List.getElem?_eq_none_iff.mpr (by omega)]
  obtain ⟨w, hw⟩ : ∃ w, vs[k]? = some w :=
    Option.isSome_iff_exists.mp (by simp [hlen, (List.getElem?_eq_some_iff.mp hk).1])
  obtain ⟨w', hw'⟩ : ∃ w', vs'[k]? = some w' :=
    Option.isSome_iff_exists.mp (by simp [hlen', (List.getElem?_eq_some_iff.mp hk).1])
  rw [hw, hw', hvs k x w hk hw (hvs' k x w' hk hw')]

/-- The value of a constant of `lit` is what `kintvalue` reads. -/
theorem Value.of_lit {x : Nat} {k : Ins} (h : Value T F lit p code x v) (hx : code[x]? = some k)
    (hl : lit k.opcode) : kintvalue p k = .ok v := by
  obtain ⟨ins, hins, hd⟩ := value_iff.mp h
  cases hx.symm.trans hins
  exact (denotes_of_lit hl).mp hd

/-- An id that the guards of `fold` see as the `KINT` `c` has the value of `c`. -/
theorem Value.of_isKintAt {x : Nat} {c : BitVec 32} (h : Value T F Opcode.isLiteral p code x v)
    (hc : isKintAt code x c) : v = c.signExtend 64 := by
  unfold isKintAt at hc
  split at hc
  · rename_i k hk
    simp only [Bool.and_eq_true, beq_iff_eq] at hc
    have := h.of_lit hk (by simp [hc.1, Opcode.isLiteral])
    simp only [kintvalue, hc.1, hc.2] at this
    exact (Except.ok.inj this).symm
  · cases hc

end

/-! ## The arms of `fold` keep what an instruction denotes -/

section
variable {F : Ins → List (BitVec 64) → BitVec 64} {debug : Bool} {p p' : Intern}
  {code : List Ins} {j : Ins} {v : BitVec 64}

/-- The arithmetic operands of an instruction that denotes a value. -/
theorem denotes_arith (ha : j.opcode.isIntArith)
    (h : Denotes T F Opcode.isLiteral p (Value T F Opcode.isLiteral p code) j v) :
    ∃ va vb, Value T F Opcode.isLiteral p code j.a va ∧ Value T F Opcode.isLiteral p code j.b vb ∧
      foldintarith false j.opcode va vb = .ok v :=
  (denotes_of_isIntArith (Opcode.isLiteral_eq_false_of_isArith (Opcode.isArith_of_isIntArith ha))
    ha).mp h

/-- `x + 0`, `x * 1`, `x / 1` and `MOV x` have the values of `x`. -/
theorem fold_new_sound {n : Nat} (hf : fold T debug p code j = .ok (p', .New n))
    (h : Denotes T F Opcode.isLiteral p (Value T F Opcode.isLiteral p code) j v) :
    Value T F Opcode.isLiteral p code n v := by
  obtain ⟨-, rfl, hk⟩ := fold_new hf
  rcases hk with hz | h1 | hm
  · simp only [isAddZero, Bool.and_eq_true, beq_iff_eq] at hz
    obtain ⟨va, vb, hva, hvb, hv⟩ := denotes_arith (by rw [hz.1]; rfl) h
    rw [hvb.of_isKintAt hz.2, hz.1, show (0 : BitVec 32).signExtend 64 = 0 from rfl,
      foldintarith_add_zero] at hv
    exact Except.ok.inj hv ▸ hva
  · simp only [isMulOne, Bool.and_eq_true, Bool.or_eq_true, beq_iff_eq] at h1
    have hop : j.opcode = .MUL ∨ j.opcode = .DIV ∨ j.opcode = .UDIV := by tauto
    obtain ⟨va, vb, hva, hvb, hv⟩ := denotes_arith (by rcases hop with e | e | e <;> rw [e] <;> rfl) h
    rw [hvb.of_isKintAt h1.2, show (1 : BitVec 32).signExtend 64 = 1 from rfl,
      foldintarith_one hop] at hv
    exact Except.ok.inj hv ▸ hva
  · exact (denotes_of_mov (by rw [hm]; rfl) hm).mp h

/-- A swap of the inputs of `ADD` or `MUL` keeps what it denotes. -/
theorem fold_again_sound {j' : Ins} (hf : fold T debug p code j = .ok (p', .Again j'))
    (h : Denotes T F Opcode.isLiteral p (Value T F Opcode.isLiteral p code) j v) :
    Denotes T F Opcode.isLiteral p (Value T F Opcode.isLiteral p code) j' v := by
  obtain ⟨-, rfl, -, hs⟩ := fold_again hf
  have hc : j.opcode.isComm := by simp only [swapsInputs, Bool.and_eq_true] at hs; exact hs.1
  have ha := Opcode.isIntArith_of_isComm hc
  obtain ⟨va, vb, hva, hvb, hv⟩ := denotes_arith ha h
  refine (denotes_of_isIntArith (show j.swapInputs.opcode.isLiteral = false from
    Opcode.isLiteral_eq_false_of_isArith (Opcode.isArith_of_isIntArith ha))
    (show j.swapInputs.opcode.isIntArith from ha)).mpr ⟨vb, va, hvb, hva, ?_⟩
  rw [Ins.opcode_swapInputs, ← foldintarith_swap hc]; exact hv

/-- A folded constant denotes the value of the operation on its operands, and `x * 0`
denotes `0`. -/
theorem fold_done_sound {i : Ins} (hf : fold T debug p code j = .ok (p', .Done i))
    (hty : j.opcode.isArith → j.ty.isFloat = false)
    (h : Denotes T F Opcode.isLiteral p (Value T F Opcode.isLiteral p code) j v) :
    Denotes T F Opcode.isLiteral p' (Value T F Opcode.isLiteral p' code) i v := by
  rcases fold_done hf with ⟨hfc, l, r, hl, hr, hc⟩ | ⟨rfl, hz, rfl⟩ | ⟨rfl, rfl, -⟩
  · have har : j.opcode.isArith := by simp only [foldsConst, Bool.and_eq_true] at hfc; exact hfc.1.1
    rcases foldConst_ok hc with ⟨hfl, -⟩ | ⟨-, x, y, w, hx, hy, hw, hn⟩
    · simp [hty har] at hfl
    obtain ⟨rfl, rfl⟩ : (newkint p j.ty w).1 = p' ∧ (newkint p j.ty w).2 = i :=
      ⟨congrArg Prod.fst hn, congrArg Prod.snd hn⟩
    obtain ⟨va, vb, hva, hvb, hv⟩ := denotes_arith (isIntArith_of_foldintarith hw) h
    have hxa := (hva.of_lit hl (isLiteral_of_kintvalue hx)).symm.trans hx
    have hyb := (hvb.of_lit hr (isLiteral_of_kintvalue hy)).symm.trans hy
    cases hxa; cases hyb
    rw [foldintarith_of_debug hw] at hv
    cases hv
    exact (denotes_of_lit (Ins.isLiteral_newkint p _ _)).mpr (kintvalue_newkint p _ _)
  · simp only [isMulZero, Bool.and_eq_true, beq_iff_eq] at hz
    obtain ⟨va, vb, hva, hvb, hv⟩ := denotes_arith (by rw [hz.1]; rfl) h
    rw [hvb.of_isKintAt hz.2, hz.1, show (0 : BitVec 32).signExtend 64 = 0 from rfl,
      foldintarith_mul_zero] at hv
    cases hv
    exact (denotes_of_lit rfl).mpr rfl
  · exact h

/-- `done` leaves the instruction at the id it returns. -/
theorem Fcx.getElem?_done (s : Fcx) (i : Ins) : (s.done T i).1.code[(s.done T i).2]? = some i := by
  rcases done_cases T s i with ⟨-, idx, -, hidx, h⟩ | ⟨-, h⟩ <;> rw [h]
  · simpa using hidx
  · simp

/-- The loop around `fold` gives an id whose values are those the instruction denotes. -/
theorem foldLoop_sound {s u : Fcx} {fuel n : Nat} (hty : j.opcode.isArith → j.ty.isFloat = false)
    (h : Denotes T F Opcode.isLiteral s.intern (Value T F Opcode.isLiteral s.intern s.code) j v)
    (hl : s.foldLoop T debug fuel j = .ok (u, n)) : Value T F Opcode.isLiteral u.intern u.code n v := by
  obtain ⟨j', p', ⟨hty', h'⟩, hcase⟩ := foldLoop_induct (fun j => (j.opcode.isArith → j.ty.isFloat = false) ∧
      Denotes T F Opcode.isLiteral s.intern (Value T F Opcode.isLiteral s.intern s.code) j v)
    (fun ⟨hty, h⟩ hf => ⟨by simpa [(fold_again hf).2.1] using hty, fold_again_sound hf h⟩) ⟨hty, h⟩ hl
  rcases hcase with ⟨hf, rfl⟩ | ⟨i, hf, hdone⟩
  · obtain ⟨rfl, -⟩ := fold_new hf
    exact fold_new_sound hf h'
  · obtain rfl := congrArg Prod.fst hdone
    obtain rfl := congrArg Prod.snd hdone
    have hle := Fcx.le_done T { s with intern := p' } i
    exact value_iff.mpr ⟨i, Fcx.getElem?_done _ i,
      ((fold_done_sound hf hty' h').pool hle.intern).mono fun _ _ hw => hw.mono hle.intern hle.code⟩

end

/-! ## The invariant of the loop -/

/-- Every recorded old id has its values of the old code at its new id, and a recorded
control instruction is held at its new id with its inputs renamed. -/
structure Fcx.Sound (T : OpTable) (F : Ins → List (BitVec 64) → BitVec 64) (p : Intern)
    (f : Func) (s : Fcx) : Prop where
  pool : p.Le s.intern
  value : ∀ {x m : Nat}, s.oldNew[x]? = some (some m) → ∀ v,
    Value T F Opcode.isLiteral p f.code x v → Value T F Opcode.isLiteral s.intern s.code m v
  control : ∀ {x m : Nat} {ins : Ins}, s.oldNew[x]? = some (some m) → f.code[x]? = some ins →
    ins.opcode.isControl T → ∃ j, s.code[m]? = some j ∧ ins.Renamed T s.oldNew j

section
variable {F : Ins → List (BitVec 64) → BitVec 64} {debug : Bool} {f : Func} {p : Intern}
  {s t : Fcx}

theorem Fcx.Sound.init (p : Intern) (f : Func) : (Fold.init p f).Sound T F p f where
  pool := Intern.Le.refl p
  value hx := absurd ⟨_, hx⟩ (Fold.init_oldNew p f _)
  control hx := absurd ⟨_, hx⟩ (Fold.init_oldNew p f _)

/-- The loop around `fold` leaves a control instruction as it is. -/
theorem foldLoop_of_normal {fuel n : Nat} {u : Fcx} {r : Ins} (hn : Normal T s.code r)
    (h : s.foldLoop T debug fuel r = .ok (u, n)) : (u, n) = s.done T r := by
  cases fuel with
  | zero => cases h
  | succ fuel =>
    simp only [Fcx.foldLoop, fold_of_normal hn] at h
    exact (Except.ok.inj h).symm

/-- A node step keeps the invariant, on a function whose arithmetic is not float-typed. -/
theorem Fcx.Sound.nodeStep (hs : s.Sound T F p f)
    (hint : ∀ ins ∈ f.code, ins.opcode.isArith → ins.ty.isFloat = false) {id n : Nat}
    (h : NodeStep T debug f s id t n) : t.Sound T F p f := by
  have hle := NodeStep.le h
  have ⟨ins, fuel, u, hins, _, hin, hfl, ht⟩ := h
  subst ht
  have hr := Ins.renamed_mapSlots hin
  refine ⟨hs.pool.trans hle.intern, fun {x m} hx v hv => ?_, fun {x m ins'} hx hins' hc => ?_⟩
  all_goals rw [nodeStep_oldNew h] at hx; split at hx
  -- the node itself: its value is what the renamed instruction folds to
  · obtain rfl : n = m := by simpa using hx
    rename_i hxi; subst hxi
    obtain ⟨ins', hins', hd⟩ := value_iff.mp hv
    cases hins.symm.trans hins'
    have := foldLoop_sound (by simpa using hint ins (List.getElem?_mem hins))
      (hd.renamed hs.pool hr fun hy hw => hs.value hy _ hw) hfl
    exact this
  · exact (hs.value hx v hv).mono hle.intern hle.code
  -- a control node: no rule applies, so the renamed instruction is kept
  · obtain rfl : n = m := by simpa using hx
    rename_i hxi; subst hxi
    cases hins.symm.trans hins'
    obtain ⟨k, hk⟩ := Opcode.eq_op_of_isControl hc
    have hn : Normal T s.code (ins.mapSlots s.newId (ins.opcode.inputs T)) :=
      normal_of_not_isArith (by simp [hk, Opcode.isArith]) (by simp [hk])
    have hd := foldLoop_of_normal hn hfl
    obtain rfl := congrArg Prod.fst hd
    obtain rfl := congrArg Prod.snd hd
    exact ⟨_, Fcx.getElem?_done _ _, hr.mono hle.oldNew⟩
  · obtain ⟨j, hj, hrj⟩ := hs.control hx hins' hc
    exact ⟨j, getElem?_of_prefix hle.code hj, hrj.mono hle.oldNew⟩

/-- After the loop of `Fold::run`, the invariant holds. -/
theorem Fold.run_sound (ha : f.Acyclic T)
    (hint : ∀ ins ∈ f.code, ins.opcode.isArith → ins.ty.isFloat = false) {g : Func}
    (h : Fold.run T debug p f = .ok (s, g)) : s.Sound T F p f :=
  bfs_nodeStep_induct ha _ (fun hs => ⟨hs.1, hs.2, hs.3⟩) (fun hs hn => hs.nodeStep hint hn) (Fcx.Sound.init p f)
    (Fold.run_ok h).1

/-- No arithmetic instruction of the code is float-typed. -/
def IntArith (code : List Ins) : Prop := ∀ ins ∈ code, ins.opcode.isArith → ins.ty.isFloat = false

instance (code : List Ins) : Decidable (IntArith code) :=
  inferInstanceAs (Decidable (∀ ins ∈ code, ins.opcode.isArith → ins.ty.isFloat = false))

/-- A node step pushes a constant or the renamed instruction of the node, so it keeps the
arithmetic of the new code integer-typed. -/
theorem Fcx.intArith_nodeStep (hf : IntArith f.code) (hs : IntArith s.code) {id n : Nat}
    (h : NodeStep T debug f s id t n) : IntArith t.code := by
  have ⟨ins, fuel, u, hins, _, _, hfl, ht⟩ := h
  subst ht
  obtain ⟨j, p', ⟨hjo, hjt⟩, hcase⟩ := foldLoop_induct (fun j => j.opcode = ins.opcode ∧ j.ty = ins.ty)
    (fun ⟨ho, ht⟩ hf => by obtain ⟨-, rfl, -⟩ := fold_again hf; exact ⟨ho, ht⟩) ⟨by simp, by simp⟩ hfl
  rcases hcase with ⟨-, rfl⟩ | ⟨i, hfi, hdone⟩
  · exact hs
  obtain rfl := congrArg Prod.fst hdone
  intro k hk har
  rcases done_cases T { s with intern := p' } i with ⟨-, idx, -, -, he⟩ | ⟨-, he⟩ <;>
    simp only [Fcx.record_code, he, Fcx.enqueue_code, Fcx.push_code, List.mem_append,
      List.mem_singleton] at hk
  · exact hs k hk har
  rcases hk with hk | rfl
  · exact hs k hk har
  rcases (fold_done_normal hfi).2 with ⟨hl, -⟩ | rfl
  · simp [Opcode.isLiteral_eq_false_of_isArith har] at hl
  · rw [hjt]; exact hf ins (List.getElem?_mem hins) (hjo ▸ har)

/-- The code `Fold::run` returns has no float-typed arithmetic when the function has none. -/
theorem Fold.run_intArith (ha : f.Acyclic T) (hf : IntArith f.code) {g : Func}
    (h : Fold.run T debug p f = .ok (s, g)) : IntArith g.code := by
  have hs := bfs_nodeStep_induct ha (fun s => IntArith s.code) (fun hs => hs)
    (fun hs hn => Fcx.intArith_nodeStep hf hs hn) (by simp [IntArith, Fold.init]) (Fold.run_ok h).1
  intro ins' hins' har
  obtain ⟨k, hk⟩ := List.getElem?_of_mem hins'
  obtain ⟨ins, hins, hfix⟩ := (Fold.run_spec ha h).2.2.2.1 k ins' hk
  rw [hfix.ty]
  exact hs ins (List.getElem?_mem hins) (hfix.opcode ▸ har)

/-- A control instruction renamed and then fixed up has every edge slot mapped through
`old_new`. -/
theorem Ins.Renamed.fixed_eq_mapSlots {ins j ins' : Ins} (hr : ins.Renamed T s.oldNew j)
    (hc : ins.opcode.isComm = false) (hf : j.Fixed T s.oldNew ins') :
    ins' = ins.mapSlots s.newId (ins.opcode.inputs T ++ ins.opcode.controls T) := by
  have hin := hr.inputs.resolve_right fun h => by simp [h.1] at hc
  refine Ins.ext_get (by simp [hf.opcode, hr.opcode]) (by simp [hf.ty, hr.ty]) fun sl => ?_
  rw [Ins.get_mapSlots _ (ins.opcode.nodup_inputs_append_controls T)]
  by_cases hi : sl ∈ ins.opcode.inputs T
  · have hnc : sl ∉ ins.opcode.controls T := Opcode.not_mem_controls_of_mem_inputs hi
    simp [hi, Fcx.newId_of_getElem? (hin sl hi), hf.other sl (hr.opcode ▸ hnc)]
  by_cases hcl : sl ∈ ins.opcode.controls T
  · have := hf.controls sl (hr.opcode ▸ hcl)
    rw [hr.other sl hi] at this
    simp [hcl, Fcx.newId_of_getElem? this]
  · rw [if_neg (by simp [hi, hcl]), hf.other sl (hr.opcode ▸ hcl), hr.other sl hi]

end

/-! ## `Fold::run` -/

/-- A reachable control instruction is kept by `Fold::run` at its new id, with every input
and control slot mapped through `old_new`. -/
theorem Fold.run_getElem?_control {debug : Bool} {p : Intern} {f : Func} {s : Fcx} {g : Func}
    (ha : f.Acyclic T) (hint : ∀ ins ∈ f.code, ins.opcode.isArith → ins.ty.isFloat = false)
    (h : Fold.run T debug p f = .ok (s, g)) {x m : Nat} {ins : Ins}
    (hx : s.oldNew[x]? = some (some m)) (hins : f.code[x]? = some ins)
    (hc : ins.opcode.isControl T) :
    g.code[m]? = some (ins.mapSlots s.newId (ins.opcode.inputs T ++ ins.opcode.controls T)) := by
  obtain ⟨-, -, hlen, hrel, -⟩ := Fold.run_spec ha h
  obtain ⟨j, hj, hr⟩ := (Fold.run_sound (F := fun _ _ => 0) ha hint h).control hx hins hc
  obtain ⟨ins', hins'⟩ : ∃ ins', g.code[m]? = some ins' :=
    Option.isSome_iff_exists.mp (by simp [hlen, (List.getElem?_eq_some_iff.mp hj).1])
  obtain ⟨j', hj', hf⟩ := hrel m ins' hins'
  cases hj.symm.trans hj'
  obtain ⟨k, hk⟩ := Opcode.eq_op_of_isControl hc
  rw [hins', hr.fixed_eq_mapSlots (by simp [hk, Opcode.isComm]) hf]

/-- `Fold::run` preserves the values of an acyclic function whose arithmetic is not
float-typed, when constants are read with `kintvalue`.  Every reachable id is recorded, and
a value it has in the old code is the one value of its new id in the new code.  A reachable
control instruction is kept with its opcode, type and immediates, and every edge of it is
reachable and renamed through `old_new`. -/
theorem Fold.run_preserves_values (F : Ins → List (BitVec 64) → BitVec 64) {debug : Bool}
    {p : Intern} {f : Func} {s : Fcx} {g : Func} (ha : f.Acyclic T)
    (hint : ∀ ins ∈ f.code, ins.opcode.isArith → ins.ty.isFloat = false)
    (h : Fold.run T debug p f = .ok (s, g)) {i : Nat} (hi : f.Reach T i) :
    ∃ m, s.oldNew[i]? = some (some m) ∧
      (∀ v, Value T F Opcode.isLiteral p f.code i v →
        ∀ w, Value T F Opcode.isLiteral s.intern g.code m w ↔ w = v) ∧
      ∀ ins, f.code[i]? = some ins → ins.opcode.isControl T →
        (∀ x ∈ ins.edges T, ∃ m', s.oldNew[x]? = some (some m')) ∧
        g.code[m]? = some (ins.mapSlots s.newId (ins.opcode.inputs T ++ ins.opcode.controls T)) := by
  obtain ⟨-, hreach, hlen, hrel, -⟩ := Fold.run_spec ha h
  obtain ⟨m, hm⟩ := (hreach i).mpr hi
  refine ⟨m, hm, fun v hv w => ?_, fun ins hins hc =>
    ⟨fun x hx => (hreach x).mpr (hi.edge hins hx), Fold.run_getElem?_control ha hint h hm hins hc⟩⟩
  have hv' := Value.of_fixed hlen hrel ((Fold.run_sound ha hint h).value hm v hv)
  exact ⟨fun hw => hw.det hv', fun e => e ▸ hv'⟩

theorem Fold.run_preserves_values_sample :
    Func.sample.Acyclic OpTable.sample ∧
      (∀ ins ∈ Func.sample.code, ins.opcode.isArith → ins.ty.isFloat = false) ∧
      Func.sample.Reach OpTable.sample 2 ∧
      ∃ s g, Fold.run OpTable.sample false ⟨[]⟩ Func.sample = .ok (s, g) ∧
        ∃ m, s.oldNew[2]? = some (some m) ∧
          ∀ v, Value OpTable.sample (fun _ _ => 0) Opcode.isLiteral ⟨[]⟩ Func.sample.code 2 v →
            ∀ w, Value OpTable.sample (fun _ _ => 0) Opcode.isLiteral s.intern g.code m w ↔ w = v := by
  have ha : Func.sample.Acyclic OpTable.sample := Func.Topo.acyclic _ (by decide)
  have hint : ∀ ins ∈ Func.sample.code, ins.opcode.isArith → ins.ty.isFloat = false := by decide
  have hr : Func.sample.Reach OpTable.sample 2 := .edge .entry rfl (by decide)
  exact ⟨ha, hint, hr, _, _, rfl, (@Fold.run_preserves_values _ (fun _ _ => 0) false ⟨[]⟩ _ _ _
    ha hint rfl _ hr).imp fun _ h => ⟨h.1, h.2.1⟩⟩

/-- The function `v0 = KFP64 0.0; v1 = KINT 2; v2 = ADD v0 v1; RET v2` at type `i64`, whose
float is the word at handle `0` of the pool. -/
def Func.kfpAdd : Func :=
  ⟨[Ins.KFP64 .I64 0, Ins.KINT .I64 2, ⟨.ADD, .I64, 0, 1, 0⟩, ⟨.op 0, .FX, 2, 0, 0⟩], 3⟩

/-- With only `KINT` and `KINT64` read as constants, the values are not preserved: the
addition of `KFP64 0.0` and `2` is `3` when `F` gives `1` for the float, but the fold reads
the float as the integer `0`, so the addition folds to `KINT 2` and is merged with `v1`. -/
theorem Fold.run_reads_kfp64_as_int :
    Func.kfpAdd.InRange OpTable.sample ∧ Func.kfpAdd.Acyclic OpTable.sample ∧
      (∀ ins ∈ Func.kfpAdd.code, ins.opcode.isArith → ins.ty.isFloat = false) ∧
      Func.kfpAdd.Reach OpTable.sample 2 ∧
      ∃ s g, Fold.run OpTable.sample false ⟨[0]⟩ Func.kfpAdd = .ok (s, g) ∧
        s.oldNew[2]? = some (some 1) ∧
        (∀ w, Value OpTable.sample (fun _ _ => 1) Opcode.isKint ⟨[0]⟩ Func.kfpAdd.code 2 w ↔ w = 3) ∧
        ∀ w, Value OpTable.sample (fun _ _ => 1) Opcode.isKint s.intern g.code 1 w ↔ w = 2 := by
  have hold : Value OpTable.sample (fun _ _ => 1) Opcode.isKint ⟨[0]⟩ Func.kfpAdd.code 2 3 :=
    .arith rfl rfl rfl (@Value.other OpTable.sample _ _ _ _ 0 _ [] rfl rfl rfl (by decide) rfl
      (by simp)) (.const rfl rfl rfl) rfl
  refine ⟨by decide, Func.Topo.acyclic _ (by decide), by decide, .edge .entry rfl (by decide),
    _, _, rfl, rfl, fun w => ⟨fun h => h.det hold, fun e => e ▸ hold⟩,
    fun w => ⟨fun h => h.det (.const rfl rfl rfl), fun e => by subst e; exact .const rfl rfl rfl⟩⟩

end Fhk5
