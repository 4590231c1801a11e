import Fhk5.Fold.Result

/-!
# The code `Fold::run` returns is in normal form

A rule of `fold` reads the new code only at the two inputs of an arithmetic instruction:
whether each holds a constant, and the immediate of a `KINT` second input.  An instruction
the fold returns `Done` is normal for the code it read (`fold_done_normal`), and its inputs
come before it, so pushing more instructions changes nothing the rules read.  Nor does
`fixup`, which keeps every opcode and leaves instructions without control slots alone.  So
every instruction of the code `Fold::run` returns is normal for that code
(`Fold.run_normal`).  `Fold.run_normal_form` spells out what that excludes, and that the
assertion of the `MOV` arm never fires during the run.

*Renaming.*  `normal_rename` is the same fact for an instruction whose inputs are renamed
into another code that agrees at them: no rule applies, except that `ADD` and `MUL` may
have to swap their inputs once, and the swapped instruction is normal.  The next module
uses it for a second run of the fold.

`Func.Canon` collects what a second run reads of a function `Fold::run` returned:
operands come before their users, control successors and the entry are in range, every
instruction is normal, and equal `is_cse` instructions without control slots sit at one
index (`Fold.run_canon`).
-/

namespace Fhk5

variable {T : OpTable}

/-! ## What the rules read -/

/-- Two codes agree at `v` and `v'` on what the rules read there: whether the instruction is
a constant, and the immediate of a `KINT`. -/
def SameGuards (T : OpTable) (code code' : List Ins) (v v' : Nat) : Prop :=
  isConstAt T code' v' = isConstAt T code v ∧ ∀ k, isKintAt code' v' k = isKintAt code v k

theorem Opcode.inputs_of_isArith {op : Opcode} (h : op.isArith) : op.inputs T = [.a, .b] := by
  cases op <;> simp_all [isArith, inputs]

theorem Ins.inputs_of_isArith {i : Ins} (h : i.opcode.isArith) : i.inputs T = [i.a, i.b] := by
  simp [inputs, Opcode.inputs_of_isArith h, get]

theorem isKintAt_eq_false {code : List Ins} {v : Nat} (h : isConstAt T code v = false)
    (k : BitVec 32) : isKintAt code v k = false := by
  unfold isConstAt at h
  unfold isKintAt
  split <;> simp_all
  rename_i i _
  cases hi : i.opcode <;> simp_all [Opcode.isConst]

/-- A normal `ADD` or `MUL` has a first input that is no constant, and its inputs in order
unless the second is a constant. -/
theorem Normal.comm_order {code : List Ins} {i : Ins} (h : Normal T code i)
    (hc : i.opcode.isComm) : isConstAt T code i.a = false ∧ (i.b < i.a → isConstAt T code i.b) := by
  have := h.2.1
  simp only [swapsInputs, hc, Bool.true_and, Bool.or_eq_false_iff, Bool.and_eq_false_iff,
    decide_eq_false_iff_not, Bool.not_eq_false'] at this
  exact ⟨this.1, fun hlt => this.2.resolve_left (not_not.mpr hlt)⟩

/-- A normal instruction renamed into a code that agrees at its inputs is normal, or needs
one swap of `ADD` or `MUL` inputs, after which it is normal. -/
theorem normal_rename {code code' : List Ins} {ins r : Ins} (hn : Normal T code ins)
    (hop : r.opcode = ins.opcode)
    (hg : ins.opcode.isArith → SameGuards T code code' ins.a r.a ∧ SameGuards T code code' ins.b r.b) :
    (swapsInputs T code' r = false → Normal T code' r) ∧
      (swapsInputs T code' r → Normal T code' r.swapInputs) := by
  by_cases har : ins.opcode.isArith
  · obtain ⟨⟨hca, hka⟩, hcb, hkb⟩ := hg har
    obtain ⟨h1, h2, h3, h4, h5, h6⟩ := hn
    have hf : foldsConst T code' r = false := by simpa only [foldsConst, hop, hca, hcb] using h1
    refine ⟨fun hs => ⟨hf, hs, ?_, ?_, ?_, hop ▸ h6⟩, fun hs => ?_⟩
    · simpa only [isAddZero, hop, hkb] using h3
    · simpa only [isMulOne, hop, hkb] using h4
    · simpa only [isMulZero, hop, hkb] using h5
    -- after the swap the second input is the image of the first, which is no constant
    have hc : ins.opcode.isComm := by simp_all [swapsInputs]
    have hk : ∀ k, isKintAt code' r.a k = false := fun k => by
      rw [hka]
      exact isKintAt_eq_false (Normal.comm_order ⟨h1, h2, h3, h4, h5, h6⟩ hc).1 k
    refine ⟨by rw [foldsConst_swapInputs]; exact hf, swapsInputs_swapInputs hf hs, ?_, ?_, ?_,
      by simpa [hop] using h6⟩ <;> simp [isAddZero, isMulOne, isMulZero, hk]
  · have har' : r.opcode.isArith = false := by simpa [hop] using har
    have hr : Normal T code' r := normal_of_not_isArith har' (hop ▸ hn.2.2.2.2.2)
    exact ⟨fun _ => hr, fun hs => absurd hs (by simp [hr.2.1])⟩

/-- A normal instruction stays normal in a code that agrees with its own at its inputs. -/
theorem Normal.congr {code code' : List Ins} {i : Ins} (h : Normal T code i)
    (hg : i.opcode.isArith → SameGuards T code code' i.a i.a ∧ SameGuards T code code' i.b i.b) :
    Normal T code' i := by
  refine (normal_rename h rfl hg).1 ?_
  by_cases har : i.opcode.isArith
  · obtain ⟨⟨hca, -⟩, hcb, -⟩ := hg har
    simpa only [swapsInputs, hca, hcb] using h.2.1
  · have : Normal T code' i := normal_of_not_isArith (by simpa using har) h.2.2.2.2.2
    exact this.2.1

theorem sameGuards_append {code : List Ins} {v : Nat} (hv : v < code.length) (l : List Ins) :
    SameGuards T code (code ++ l) v v := by
  simp [SameGuards, isConstAt, isKintAt, List.getElem?_append_left hv]

/-- Pushing instructions after a normal one whose inputs come before them keeps it normal. -/
theorem Normal.append {code : List Ins} {i : Ins} (h : Normal T code i)
    (hin : ∀ x ∈ i.inputs T, x < code.length) (l : List Ins) : Normal T (code ++ l) i :=
  h.congr fun har => by
    have hab := Ins.inputs_of_isArith (T := T) har
    exact ⟨sameGuards_append (hin _ (by simp [hab])) l, sameGuards_append (hin _ (by simp [hab])) l⟩

/-- `fixup` changes nothing the rules read. -/
theorem sameGuards_fixup {code code' : List Ins} {oldNew : List (Option Nat)}
    (hlen : code'.length = code.length)
    (hrel : ∀ (k : Nat) (i' : Ins), code'[k]? = some i' → ∃ i, code[k]? = some i ∧ i.Fixed T oldNew i')
    (v : Nat) : SameGuards T code code' v v := by
  cases h' : code'[v]? with
  | none =>
    have : code[v]? = none := by rw [List.getElem?_eq_none_iff] at h' ⊢; omega
    simp [SameGuards, isConstAt, isKintAt, h', this]
  | some i' =>
    obtain ⟨i, hi, hf⟩ := hrel v i' h'
    by_cases hk : i.opcode = .KINT
    · -- a `KINT` has no control slots
      obtain rfl := hf.eq_of_controls (by simp [hk, Opcode.controls])
      simp [SameGuards, isConstAt, isKintAt, h', hi]
    · have hk' : (i.opcode == .KINT) = false := by simpa using hk
      simp [SameGuards, isConstAt, isKintAt, h', hi, hf.opcode, hk']

/-! ## Normal code -/

/-- Every instruction of the new code is normal for it. -/
def Fcx.NormalCode (T : OpTable) (s : Fcx) : Prop :=
  ∀ {k : Nat} {ins : Ins}, s.code[k]? = some ins → Normal T s.code ins

variable {debug : Bool} {f : Func} {p : Intern} {s t : Fcx}

/-- A node step keeps the new code normal. -/
theorem Fcx.NormalCode.nodeStep {id n : Nat} (hw : s.Wf T f) (hn : s.NormalCode T)
    (h : NodeStep T debug f s id t n) : t.NormalCode T := by
  obtain ⟨ins, -, -, hin, p, -, ⟨-, -, rfl⟩ | ⟨i, u, hi, hiin, -, -, hd, rfl⟩⟩ := nodeStep_cases h
  · exact hn
  have hlt : ∀ x ∈ i.inputs T, x < s.code.length := fun x hx => by
    obtain ⟨y, hy, rfl⟩ := hiin x hx
    obtain ⟨m, hm⟩ := hin y hy
    rw [Fcx.newId_of_getElem? hm]; exact hw.lt hm
  rcases Fcx.done_cases T { s with intern := p } i with ⟨-, idx, -, -, hdone⟩ | ⟨-, hdone⟩ <;>
    rw [hdone] at hd <;> obtain ⟨rfl, rfl⟩ := Prod.mk.inj hd <;> intro k j hk <;>
    simp only [Fcx.record_code, Fcx.push_code, Fcx.enqueue_code] at hk ⊢
  · exact hn hk
  · rcases getElem?_concat_eq_some hk with hk | ⟨rfl, rfl⟩
    · exact (hn hk).append (fun x hx => (hw.topo hk x hx).trans (List.getElem?_eq_some_iff.mp hk).1) _
    · exact hi.append hlt _

/-- The buffers `Fold::run` leaves hold normal code. -/
theorem Fold.run_normalCode (ha : f.Acyclic T) {g : Func} (h : Fold.run T debug p f = .ok (s, g)) :
    s.NormalCode T :=
  (bfs_nodeStep_induct ha (fun s => s.Wf T f ∧ s.NormalCode T)
    (fun h => ⟨h.1.of_eq rfl rfl rfl, h.2⟩) (fun h hs => ⟨h.1.nodeStep hs, Fcx.NormalCode.nodeStep h.1 h.2 hs⟩)
    ⟨Fcx.Wf.init p f, fun hk => by simp [Fold.init] at hk⟩ (Fold.run_ok h).1).2

/-- Every instruction of the code `Fold::run` returns is normal for it: evaluated against
that code, `fold` returns it `Done`. -/
theorem Fold.run_normal (ha : f.Acyclic T) {g : Func} (h : Fold.run T debug p f = .ok (s, g))
    {k : Nat} {ins : Ins} (hk : g.code[k]? = some ins) : Normal T g.code ins := by
  obtain ⟨-, -, hlen, hrel, -⟩ := Fold.run_spec ha h
  have hn : s.NormalCode T := fun hk => Fold.run_normalCode ha h hk
  obtain ⟨ins₀, hins₀, hfix⟩ := hrel k ins hk
  have hg := sameGuards_fixup (T := T) hlen hrel
  by_cases har : ins₀.opcode.isArith
  · -- an arithmetic instruction has no control slots, so `fixup` leaves it alone
    obtain rfl := hfix.eq_of_controls (Opcode.controls_of_ne_op (Opcode.ne_op_of_isArith har)).2
    exact (hn hins₀).congr fun _ => ⟨hg _, hg _⟩
  · exact normal_of_not_isArith (by simpa [hfix.opcode] using har)
      (hfix.opcode ▸ (hn hins₀).2.2.2.2.2)

/-- A `MOV` whose operand is no `MOV` folds to its operand, with or without the assertion
of its arm. -/
theorem fold_mov {debug : Bool} {q : Intern} {code : List Ins} {ins : Ins} (hmov : ins.opcode = .MOV)
    (hop : ∀ i, code[ins.a]? = some i → i.opcode ≠ .MOV) : fold T debug q code ins = .ok (q, .New ins.a) := by
  have hnm : (code[ins.a]?.map Ins.opcode == some .MOV) = false := by
    cases hi : code[ins.a]? with
    | none => rfl
    | some i => simpa using hop i hi
  simp [fold, foldsConst, swapsInputs, isAddZero, isMulOne, isMulZero, hmov, Opcode.isArith,
    Opcode.isComm, hnm]

/-- Every instruction of the code `Fold::run` returns is a normal form of `fold`: evaluated
against that code, with or without debug assertions and in any pool, `fold` returns it
`Done`.  So the code holds no `MOV`, no arithmetic on two constants, no `x + 0`, `x * 1`,
`x * 0`, `x / 1` whose `0` or `1` is a `KINT`, and every `ADD` and `MUL` has a first operand
that is no constant, and a constant second operand or its operands in order.  Every fold of
the run reads a prefix of the new code, where no instruction is a `MOV`, so the assertion of
the `MOV` arm never fires. -/
theorem Fold.run_normal_form (ha : f.Acyclic T) {g : Func} (h : Fold.run T debug p f = .ok (s, g)) :
    (∀ {k : Nat} {ins : Ins}, g.code[k]? = some ins →
      (∀ (debug' : Bool) (q : Intern), fold T debug' q g.code ins = .ok (q, .Done ins)) ∧
      ins.opcode ≠ .MOV ∧
      (ins.opcode.isArith → ¬(isConstAt T g.code ins.a ∧ isConstAt T g.code ins.b)) ∧
      (ins.opcode = .ADD → isKintAt g.code ins.b 0 = false) ∧
      (ins.opcode = .MUL → isKintAt g.code ins.b 1 = false ∧ isKintAt g.code ins.b 0 = false) ∧
      (ins.opcode = .DIV ∨ ins.opcode = .UDIV → isKintAt g.code ins.b 1 = false) ∧
      (ins.opcode.isComm →
        isConstAt T g.code ins.a = false ∧ (isConstAt T g.code ins.b ∨ ins.a ≤ ins.b))) ∧
    ∀ c, c <+: s.code → ∀ (debug' : Bool) (q : Intern) (ins : Ins), ins.opcode = .MOV →
      fold T debug' q c ins = .ok (q, .New ins.a) := by
  refine ⟨fun {k ins} hk => ?_, fun c ⟨l, hl⟩ _ _ ins hmov => fold_mov hmov fun i hi => ?_⟩
  · have hn := Fold.run_normal ha h hk
    obtain ⟨h1, -, h3, h4, h5, h6⟩ := id hn
    refine ⟨fun _ _ => fold_of_normal hn, h6, fun har hc => ?_, fun hop => ?_, fun hop => ?_,
      fun hop => ?_, fun hc => ?_⟩
    · simp [foldsConst, har, hc.1, hc.2] at h1
    · simpa [isAddZero, hop] using h3
    · exact ⟨by simpa [isMulOne, hop] using h4, by simpa [isMulZero, hop] using h5⟩
    · rcases hop with hop | hop <;> simpa [isMulOne, hop] using h4
    · obtain ⟨hca, hcb⟩ := Normal.comm_order hn hc
      exact ⟨hca, (Nat.lt_or_ge ins.b ins.a).imp hcb id⟩
  · -- the operand, if in the prefix, is an instruction of the new code
    have hi' : s.code[ins.a]? = some i := by
      rw [← hl, List.getElem?_append_left (List.getElem?_eq_some_iff.mp hi).1]; exact hi
    exact (Fold.run_normalCode ha h hi').2.2.2.2.2

theorem Fold.run_normal_form_sample :
    Func.sample.Acyclic OpTable.sample ∧ ∃ s g,
      Fold.run OpTable.sample false ⟨[]⟩ Func.sample = .ok (s, g) ∧
      ∀ (k : Nat) (ins : Ins), g.code[k]? = some ins → ins.opcode ≠ .MOV :=
  have ha : Func.sample.Acyclic OpTable.sample := Func.Topo.acyclic _ (by decide)
  ⟨ha, _, _, rfl, fun _ _ hk => ((@Fold.run_normal_form _ false _ ⟨[]⟩ _ ha _ rfl).1 hk).2.1⟩

/-! ## Canonical functions -/

/-- What a second run of the fold reads of a function `Fold::run` returned. -/
structure Func.Canon (T : OpTable) (g : Func) : Prop where
  /-- Operands come before their users. -/
  topo : g.Topo T
  /-- Control successors are in range. -/
  controls : ∀ ins ∈ g.code, ∀ c ∈ ins.controls T, c < g.code.length
  /-- The entry is in range. -/
  entry : g.entry < g.code.length
  /-- No rule of `fold` applies to an instruction of the code. -/
  normal : ∀ {k : Nat} {ins : Ins}, g.code[k]? = some ins → Normal T g.code ins
  /-- Equal `is_cse` instructions without control slots sit at one index. -/
  cseUniq : ∀ {j k : Nat} {ins : Ins}, g.code[j]? = some ins → g.code[k]? = some ins →
    ins.opcode.isCse T → ins.opcode.controls T = [] → j = k

/-- A function `Fold::run` returned is canonical. -/
theorem Fold.run_canon (ha : f.Acyclic T) {g : Func} (h : Fold.run T debug p f = .ok (s, g)) :
    g.Canon T :=
  ⟨Fold.run_topo ha h, (Fold.run_inRange ha h).1, (Fold.run_inRange ha h).2, Fold.run_normal ha h,
    Fold.run_eq_of_isCse ha h⟩

end Fhk5
