import Mathlib.Data.List.Nodup
import Mathlib.Data.List.Perm.Subperm
import Fhk5.Fold.Visit

/-!
# One node of `visit`, and the shape of the new code

`nodeStep_cases` says what a `NodeStep` can do, in terms an invariant can use.  The
instruction `ins` of the node is renamed, its input slots holding the new ids of its
inputs.  After at most one swap of `ADD` or `MUL` inputs, the fold either

* collapses it to the new id of one of its inputs (`New`), or
* gives a `Done` instruction whose inputs are new ids of inputs of `ins` and whose
  control successors are among those of `ins`: a folded constant has neither, and an
  instruction no rule applies to is the renamed one, possibly swapped.

`Fcx.Wf` is the shape invariant of the buffers: `old_new` is sized to the function and
maps into the new code, every input of an instruction of the new code comes before it,
every control successor in the new code is one of a visited old instruction, `cse_map`
holds every `is_cse` instruction of the new code and no two of those are equal, every
index of the new code is recorded for some old id, and the new code is no longer than
the number of old ids visited.  `Fcx.Wf.nodeStep` shows that a node step keeps it.
-/

namespace Fhk5

variable {T : OpTable}

/-! ## Instructions under renaming and swapping -/

/-- `KINT`, `KINT64` or `KFP64`: the constants `fold` builds. -/
def Opcode.isLiteral : Opcode → Bool
  | .KINT | .KINT64 | .KFP64 => true
  | _ => false

namespace Opcode

theorem inputs_of_isComm {op : Opcode} (h : op.isComm) : op.inputs T = [.a, .b] := by
  cases op <;> simp_all [isComm, inputs]

theorem not_mem_controls_of_mem_inputs {op : Opcode} {sl : Slot} (h : sl ∈ op.inputs T) :
    sl ∉ op.controls T :=
  List.disjoint_of_nodup_append (op.nodup_inputs_append_controls T) h

/-- Only the opcodes of the table are control opcodes or have control slots. -/
theorem controls_of_ne_op {op : Opcode} (h : ∀ k, op ≠ .op k) :
    op.isControl T = false ∧ op.controls T = [] := by
  cases op <;> simp_all [isControl, controls]

theorem controls_eq_nil {op : Opcode} (h : op.isControl T = false) : op.controls T = [] := by
  by_contra hc; simp [isControl_of_controls T hc] at h

theorem length_controls_le (op : Opcode) : (op.controls T).length ≤ 3 := by
  have : List.Subperm (op.controls T) [Slot.a, .b, .c] :=
    (List.nodup_append.mp (op.nodup_inputs_append_controls T)).2.1.subperm fun sl _ => by
      cases sl <;> simp
  exact this.length_le

theorem ne_op_of_isArith {op : Opcode} (h : op.isArith) (k : Nat) : op ≠ .op k := by
  rintro rfl; cases h

theorem ne_op_of_isLiteral {op : Opcode} (h : op.isLiteral) (k : Nat) : op ≠ .op k := by
  rintro rfl; cases h

theorem inputs_of_isLiteral {op : Opcode} (h : op.isLiteral) : op.inputs T = [] := by
  cases op <;> first | rfl | cases h

end Opcode

namespace Ins

theorem inputs_mapSlots (g : Nat → Nat) (ins : Ins) :
    (ins.mapSlots g (ins.opcode.inputs T)).inputs T = (ins.inputs T).map g := by
  simp only [inputs, opcode_mapSlots, List.map_map]
  refine List.map_congr_left fun sl h => ?_
  simp [get_mapSlots g (ins.opcode.nodup_inputs) ins sl, h]

theorem controls_mapSlots (g : Nat → Nat) (ins : Ins) :
    (ins.mapSlots g (ins.opcode.inputs T)).controls T = ins.controls T := by
  simp only [controls, opcode_mapSlots]
  refine List.map_congr_left fun sl h => ?_
  have : sl ∉ ins.opcode.inputs T := fun h' => Opcode.not_mem_controls_of_mem_inputs h' h
  simp [get_mapSlots g (ins.opcode.nodup_inputs) ins sl, this]

theorem inputs_swapInputs {ins : Ins} (h : ins.opcode.isComm) :
    ins.swapInputs.inputs T = [ins.b, ins.a] := by
  simp [inputs, Opcode.inputs_of_isComm h, get]

theorem inputs_of_isComm {ins : Ins} (h : ins.opcode.isComm) : ins.inputs T = [ins.a, ins.b] := by
  simp [inputs, Opcode.inputs_of_isComm h, get]

/-- A constant has no inputs and no control successors, and is no control instruction. -/
theorem edges_of_isLiteral {i : Ins} (h : i.opcode.isLiteral) :
    i.inputs T = [] ∧ i.controls T = [] ∧ i.opcode.isControl T = false := by
  have := Opcode.controls_of_ne_op (T := T) (Opcode.ne_op_of_isLiteral h)
  exact ⟨by simp [inputs, Opcode.inputs_of_isLiteral h], by simp [controls, this.2], this.1⟩

theorem isLiteral_newkint (p : Intern) (ty : Ty) (v : BitVec 64) :
    (newkint p ty v).2.opcode.isLiteral := by
  unfold newkint; split <;> rfl

theorem isLiteral_newkfp (p : Intern) (ty : Ty) (v : Float) :
    (newkfp p ty v).2.opcode.isLiteral := by
  simp only [newkfp]; split <;> rfl

/-- The first slot of an arithmetic instruction or a `MOV` is an input. -/
theorem a_mem_inputs {j : Ins} (h : j.opcode.isArith ∨ j.opcode = .MOV) : j.a ∈ j.inputs T := by
  rcases h with h | h
  · have : j.opcode.inputs T = [.a, .b] := by
      cases hj : j.opcode <;> simp_all [Opcode.isArith, Opcode.inputs]
    simp [inputs, this, get]
  · simp [inputs, h, Opcode.inputs, get]

end Ins

/-- The collapsing arms fire on arithmetic instructions and `MOV`. -/
theorem isArith_of_collapse {code : List Ins} {j : Ins}
    (h : isAddZero code j ∨ isMulOne code j ∨ j.opcode = .MOV) :
    j.opcode.isArith ∨ j.opcode = .MOV := by
  simp only [isAddZero, isMulOne] at h
  revert h; cases j.opcode <;> simp [Opcode.isArith]

/-- No rule of `fold` applies to an instruction that is neither arithmetic nor a `MOV`. -/
theorem normal_of_not_isArith {code : List Ins} {i : Ins} (h : i.opcode.isArith = false)
    (hm : i.opcode ≠ .MOV) : Normal T code i := by
  have hc : i.opcode.isComm = false := by
    revert h; cases i.opcode <;> simp [Opcode.isArith, Opcode.isComm]
  have hne : i.opcode ≠ .ADD ∧ i.opcode ≠ .MUL ∧ i.opcode ≠ .DIV ∧ i.opcode ≠ .UDIV := by
    refine ⟨?_, ?_, ?_, ?_⟩ <;> intro e <;> simp [e, Opcode.isArith] at h
  simp [Normal, foldsConst, swapsInputs, isAddZero, isMulOne, isMulZero, h, hc, hne, hm]

theorem normal_of_isLiteral {code : List Ins} {i : Ins} (h : i.opcode.isLiteral) :
    Normal T code i :=
  normal_of_not_isArith (by revert h; cases i.opcode <;> simp [Opcode.isLiteral, Opcode.isArith])
    (by intro e; simp [e, Opcode.isLiteral] at h)

/-- A `Done` instruction is normal for the code the fold read: a constant folded from an
arithmetic instruction, or the folded instruction itself. -/
theorem fold_done_normal {debug : Bool} {p p' : Intern} {code : List Ins} {ins i : Ins}
    (h : fold T debug p code ins = .ok (p', .Done i)) :
    Normal T code i ∧ ((i.opcode.isLiteral ∧ ins.opcode.isArith) ∨ i = ins) := by
  rcases fold_done h with ⟨hf, l, r, -, -, hc⟩ | ⟨-, hz, rfl⟩ | ⟨-, rfl, hn⟩
  · have hi : i.opcode.isLiteral := by
      rcases foldConst_ok hc with ⟨-, _, _, v, -, -, -, hv⟩ | ⟨-, _, _, v, -, -, -, hv⟩
      · obtain rfl : (newkfp p _ v).2 = i := congrArg Prod.snd hv
        exact Ins.isLiteral_newkfp p _ v
      · obtain rfl : (newkint p _ v).2 = i := congrArg Prod.snd hv
        exact Ins.isLiteral_newkint p _ v
    exact ⟨normal_of_isLiteral hi, .inl ⟨hi, by simp_all [foldsConst]⟩⟩
  · simp only [isMulZero, Bool.and_eq_true, beq_iff_eq] at hz
    exact ⟨normal_of_isLiteral rfl, .inl ⟨rfl, by simp [hz.1, Opcode.isArith]⟩⟩
  · exact ⟨hn, .inr rfl⟩

/-- The instruction the fold loop works on is the renamed one, up to a swap of the inputs of
`ADD` or `MUL`: it has the opcode and control successors of `ins`, and its inputs are the new
ids of inputs of `ins`. -/
theorem Ins.edges_of_renamed_or_swapped {g : Nat → Nat} {ins j : Ins}
    (hj : j = ins.mapSlots g (ins.opcode.inputs T) ∨
      j = (ins.mapSlots g (ins.opcode.inputs T)).swapInputs ∧
        (ins.mapSlots g (ins.opcode.inputs T)).opcode.isComm) :
    j.opcode = ins.opcode ∧ (∀ x ∈ j.inputs T, ∃ y ∈ ins.inputs T, x = g y) ∧
      j.controls T = ins.controls T := by
  have hr : ∀ x ∈ (ins.mapSlots g (ins.opcode.inputs T)).inputs T, ∃ y ∈ ins.inputs T, x = g y :=
    fun x hx => by simpa [Ins.inputs_mapSlots, eq_comm] using hx
  rcases hj with rfl | ⟨rfl, hc⟩
  · exact ⟨by simp, hr, Ins.controls_mapSlots g ins⟩
  · have hnop : ins.opcode.controls T = [] :=
      (Opcode.controls_of_ne_op fun k e => by simp [e, Opcode.isComm] at hc).2
    refine ⟨by simp, fun x hx => hr x ?_, by simp [Ins.controls, hnop]⟩
    rw [Ins.inputs_swapInputs hc] at hx
    rw [Ins.inputs_of_isComm hc]; simp at hx ⊢; tauto

/-! ## What a node step does -/

variable {debug : Bool} {f : Func} {s t : Fcx} {id n : Nat}

/-- What the fold does to the renamed instruction of a node: collapse an instruction with
no control successors to the new id of an input, or give a `Done` instruction built from
new ids of its inputs and the same control successors, and record the result. -/
theorem nodeStep_cases (h : NodeStep T debug f s id t n) :
    ∃ ins, f.code[id]? = some ins ∧ s.oldNew[id]? = some none ∧
      (∀ x ∈ ins.inputs T, ∃ m, s.oldNew[x]? = some (some m)) ∧ ∃ p, s.intern.Le p ∧
      ((∃ x ∈ ins.inputs T, n = s.newId x) ∧ ins.controls T = [] ∧
          t = Fcx.record { s with intern := p } id n ∨
        ∃ i u, Normal T s.code i ∧ (∀ x ∈ i.inputs T, ∃ y ∈ ins.inputs T, x = s.newId y) ∧
          i.controls T = ins.controls T ∧ i.opcode.isControl T = ins.opcode.isControl T ∧
          Fcx.done T { s with intern := p } i = (u, n) ∧ t = u.record id n) := by
  obtain ⟨ins, fuel, u, hins, hid, hin, hfl, rfl⟩ := h
  refine ⟨ins, hins, hid, hin, ?_⟩
  let r := ins.mapSlots s.newId (ins.opcode.inputs T)
  obtain ⟨j, p, hj, hcase⟩ := foldLoop_induct (s := s)
    (fun j => j = r ∨ (j = r.swapInputs ∧ r.opcode.isComm))
    (fun {i j p} hi hf => by
      obtain ⟨-, rfl, -, hs⟩ := fold_again hf
      have hc : i.opcode.isComm := by simp_all [swapsInputs]
      rcases hi with rfl | ⟨rfl, -⟩
      · exact .inr ⟨rfl, hc⟩
      · exact .inl rfl)
    (.inl rfl) hfl
  obtain ⟨hjop, hjin, hjc⟩ := Ins.edges_of_renamed_or_swapped hj
  have hp : s.intern.Le p := by
    rcases hcase with ⟨hf, -⟩ | ⟨i, hf, -⟩ <;> exact le_fold hf
  refine ⟨p, hp, ?_⟩
  rcases hcase with ⟨hf, rfl⟩ | ⟨i, hf, hdone⟩
  · obtain ⟨-, rfl, hk⟩ := fold_new hf
    have hk := isArith_of_collapse hk
    have hnop : ins.opcode.controls T = [] := (Opcode.controls_of_ne_op fun k => by
      rcases hk with hk | hk
      · exact hjop ▸ Opcode.ne_op_of_isArith hk k
      · simp [← hjop, hk]).2
    obtain ⟨y, hy, hx⟩ := hjin _ (Ins.a_mem_inputs hk)
    exact .inl ⟨⟨y, hy, hx⟩, by simp [Ins.controls, hnop], rfl⟩
  · have hedges : (∀ x ∈ i.inputs T, ∃ y ∈ ins.inputs T, x = s.newId y) ∧
        i.controls T = ins.controls T ∧ i.opcode.isControl T = ins.opcode.isControl T := by
      rcases (fold_done_normal hf).2 with ⟨hi, ha⟩ | rfl
      · -- a constant folded from an arithmetic instruction: neither has control edges
        have hnop := Opcode.controls_of_ne_op (T := T) (Opcode.ne_op_of_isArith ha)
        obtain ⟨hi₁, hi₂, hi₃⟩ := Ins.edges_of_isLiteral (T := T) hi
        refine ⟨by simp [hi₁], ?_, by simp [hi₃, ← hjop, hnop.1]⟩
        rw [hi₂]; simp [Ins.controls, ← hjop, hnop.2]
      · exact ⟨hjin, hjc, by rw [hjop]⟩
    exact .inr ⟨i, u, (fold_done_normal hf).1, hedges.1, hedges.2.1, hedges.2.2, hdone.symm, rfl⟩

/-- A node step extends the state. -/
theorem NodeStep.le (h : NodeStep T debug f s id t n) : s.Le t := by
  obtain ⟨ins, fuel, u, -, hid, -, hfl, rfl⟩ := h
  exact (Fcx.le_foldLoop T hfl).trans (Fcx.le_record (Fcx.oldNew_foldLoop T hfl ▸ hid) n)

/-- A node step records the node and nothing else. -/
theorem nodeStep_oldNew (h : NodeStep T debug f s id t n) (y : Nat) :
    t.oldNew[y]? = if y = id then some (some n) else s.oldNew[y]? := by
  obtain ⟨ins, fuel, u, -, hid, -, hfl, rfl⟩ := h
  rw [Fcx.oldNew_record u id n y, Fcx.oldNew_foldLoop T hfl]
  rw [Fcx.oldNew_foldLoop T hfl]
  exact (List.getElem?_eq_some_iff.mp hid).1

/-! ## The queue and the count of visited ids -/

@[simp] theorem Fcx.next_done (s : Fcx) (ins : Ins) :
    (s.done T ins).1.next = (s.enqueue T ins).next := by
  rcases done_cases T s ins with ⟨-, idx, -, -, h⟩ | ⟨-, h⟩ <;> simp [h]

/-- A node step queues the control successors of the node. -/
theorem nodeStep_next (h : NodeStep T debug f s id t n) {ins : Ins}
    (hins : f.code[id]? = some ins) : t.next = s.next ++ ins.controls T := by
  obtain ⟨ins', hins', -, -, p, -, ⟨-, hc, rfl⟩ | ⟨i, u, -, -, hc, hctl, hd, rfl⟩⟩ := nodeStep_cases h
  all_goals obtain rfl : ins' = ins := Option.some.inj (hins'.symm.trans hins)
  · simp [hc]
  · have hu : u.next = (Fcx.enqueue T { s with intern := p } i).next := by rw [← Fcx.next_done, hd]
    rw [Fcx.record_next, hu, Fcx.enqueue]
    split
    · simp [hc]
    · rename_i hnc
      have : ins'.opcode.isControl T = false := by simpa [hctl] using hnc
      simp [Ins.controls, Opcode.controls_eq_nil this]

/-- The number of old ids visited. -/
def Fcx.numVisited (s : Fcx) : Nat := s.oldNew.countP Option.isSome

theorem Fcx.numVisited_record {s : Fcx} (hid : s.oldNew[id]? = some none) (n : Nat) :
    (s.record id n).numVisited = s.numVisited + 1 := by
  obtain ⟨hlt, he⟩ := List.getElem?_eq_some_iff.mp hid
  simp [numVisited, record, List.countP_set _ _ _ _ hlt, he]

theorem Fcx.numVisited_le (s : Fcx) : s.numVisited ≤ s.oldNew.length := List.countP_le_length _

/-- A node step visits one more id. -/
theorem nodeStep_numVisited (h : NodeStep T debug f s id t n) : t.numVisited = s.numVisited + 1 := by
  obtain ⟨ins, -, hid, -, p, -, ⟨-, -, rfl⟩ | ⟨i, u, -, -, -, -, hd, rfl⟩⟩ := nodeStep_cases h
  · exact Fcx.numVisited_record hid n
  · have hu : u.oldNew = s.oldNew := by rw [← congrArg (·.1.oldNew) hd, Fcx.oldNew_done]
    rw [Fcx.numVisited_record (hu ▸ hid)]
    simp [Fcx.numVisited, hu]

/-- A node step collapses the node to the new id of an input, or to an equal `is_cse`
instruction already in the new code, and pushes nothing; or it pushes one instruction and
returns its index. -/
theorem nodeStep_code (h : NodeStep T debug f s id t n) {ins : Ins} (hins : f.code[id]? = some ins) :
    (t.code = s.code ∧ ∃ x ∈ ins.inputs T, n = s.newId x) ∨
      (t.code = s.code ∧ ∃ i, i.opcode.isCse T ∧ s.code[n]? = some i) ∨
      ∃ i, t.code = s.code ++ [i] ∧ n = s.code.length := by
  obtain ⟨ins', hins', -, -, p, -, ⟨hx, -, rfl⟩ | ⟨i, u, -, -, -, -, hd, rfl⟩⟩ := nodeStep_cases h
  all_goals obtain rfl : ins' = ins := Option.some.inj (hins'.symm.trans hins)
  · exact .inl ⟨rfl, hx⟩
  rcases Fcx.done_cases T { s with intern := p } i with ⟨hc, idx, -, hk, hdone⟩ | ⟨-, hdone⟩ <;>
    rw [hdone] at hd <;> obtain ⟨rfl, rfl⟩ := Prod.mk.inj hd
  · exact .inr (.inl ⟨by simp, i, hc, hk⟩)
  · exact .inr (.inr ⟨i, by simp, rfl⟩)

/-! ## The shape of the new code -/

/-- The shape invariant of the buffers during a run over `f`. -/
structure Fcx.Wf (T : OpTable) (f : Func) (s : Fcx) : Prop where
  /-- `old_new` is sized to the function. -/
  length : s.oldNew.length = f.code.length
  /-- Recorded ids are ids of the new code. -/
  lt : ∀ {id m : Nat}, s.oldNew[id]? = some (some m) → m < s.code.length
  /-- The inputs of an instruction of the new code come before it. -/
  topo : ∀ {k : Nat} {ins : Ins}, s.code[k]? = some ins → ∀ x ∈ ins.inputs T, x < k
  /-- A control successor in the new code is one of a visited old instruction. -/
  ctrl : ∀ {k : Nat} {ins : Ins}, s.code[k]? = some ins → ∀ c ∈ ins.controls T,
    ∃ (id : Nat) (ins₀ : Ins) (m : Nat), s.oldNew[id]? = some (some m) ∧
      f.code[id]? = some ins₀ ∧ c ∈ ins₀.controls T
  /-- `cse_map` holds every `is_cse` instruction of the new code. -/
  cseAll : ∀ {k : Nat} {ins : Ins}, s.code[k]? = some ins → ins.opcode.isCse T → k ∈ s.cseMap
  /-- No two `is_cse` instructions of the new code are equal. -/
  cseUniq : ∀ {j k : Nat} {ins : Ins}, s.code[j]? = some ins → s.code[k]? = some ins →
    ins.opcode.isCse T → j = k
  /-- Every index of the new code is recorded for some old id. -/
  image : ∀ {k : Nat}, k < s.code.length → ∃ id : Nat, s.oldNew[id]? = some (some k)
  /-- The new code is no longer than the number of old ids visited. -/
  count : s.code.length ≤ s.numVisited

theorem getElem?_concat_eq_some {α : Type} {l : List α} {a b : α} {k : Nat}
    (h : (l ++ [a])[k]? = some b) : l[k]? = some b ∨ (k = l.length ∧ b = a) := by
  rcases Nat.lt_or_ge k l.length with hk | hk
  · exact .inl (by rwa [List.getElem?_append_left hk] at h)
  · rw [List.getElem?_append_right hk] at h
    obtain h0 | h0 := Nat.eq_zero_or_pos (k - l.length)
    · rw [h0] at h
      exact .inr ⟨by omega, (Option.some.inj h).symm⟩
    · rw [List.getElem?_eq_none_iff.mpr (by simp; omega)] at h
      cases h

namespace Fcx.Wf

theorem of_eq (h : s.Wf T f) (ho : t.oldNew = s.oldNew) (hc : t.code = s.code)
    (hm : t.cseMap = s.cseMap) : t.Wf T f := by
  obtain ⟨i, o, q, m, c⟩ := s
  obtain ⟨i', o', q', m', c'⟩ := t
  simp only at ho hc hm
  subst ho hc hm
  exact ⟨h.1, h.2, h.3, h.4, h.5, h.6, h.7, h.8⟩

/-- Recording an id of the new code for an unvisited node keeps the invariant. -/
theorem record (h : s.Wf T f) (hid : s.oldNew[id]? = some none) (hn : n < s.code.length) :
    (s.record id n).Wf T f := by
  have hle := Fcx.le_record hid n
  have hlt : id < s.oldNew.length := (List.getElem?_eq_some_iff.mp hid).1
  refine ⟨by simp [Fcx.record, h.length], fun {y m} hy => ?_, h.topo, fun hk c hc => ?_,
    h.cseAll, h.cseUniq, fun hk => ?_, ?_⟩
  · rw [Fcx.oldNew_record s id n y hlt] at hy
    split at hy
    · cases hy; exact hn
    · exact h.lt hy
  · obtain ⟨id', ins₀, m, h1, h2, h3⟩ := h.ctrl hk c hc
    exact ⟨id', ins₀, m, hle.oldNew h1, h2, h3⟩
  · obtain ⟨id', h1⟩ := h.image hk
    exact ⟨id', hle.oldNew h1⟩
  · rw [Fcx.numVisited_record hid]; exact Nat.le_succ_of_le h.count

/-- Pushing the `Done` instruction of a node and recording its index keeps the invariant,
when its inputs are ids of the new code, its control successors are those of the node,
and, if it is `is_cse`, the new code holds no equal instruction. -/
theorem pushRecord (h : s.Wf T f) (hid : s.oldNew[id]? = some none) {ins i : Ins}
    (hins : f.code[id]? = some ins) (hin : ∀ x ∈ i.inputs T, x < s.code.length)
    (hc : i.controls T = ins.controls T) (hnew : i.opcode.isCse T → ∀ k : Nat, s.code[k]? ≠ some i) :
    ((s.push T i).record id s.code.length).Wf T f := by
  have hid' : (s.push T i).oldNew[id]? = some none := hid
  have hle := (Fcx.le_push T s i).trans (Fcx.le_record hid' s.code.length)
  have hlt : id < s.oldNew.length := (List.getElem?_eq_some_iff.mp hid).1
  have hrec : ∀ y, ((s.push T i).record id s.code.length).oldNew[y]? =
      if y = id then some (some s.code.length) else s.oldNew[y]? :=
    fun y => Fcx.oldNew_record _ id _ y hlt
  refine ⟨by simp [Fcx.record, h.length], fun {y m} hy => ?_, fun {k j} hk x hx => ?_,
    fun {k j} hk c hcj => ?_, fun {k j} hk hcse => ?_, fun {k k' j} hk hk' hcse => ?_,
    fun {k} hk => ?_, ?_⟩
  · rw [hrec] at hy
    split at hy
    · cases hy; simp
    · simpa using Nat.lt_succ_of_lt (h.lt hy)
  · rcases getElem?_concat_eq_some hk with hk | ⟨rfl, rfl⟩
    · exact h.topo hk x hx
    · exact hin x hx
  · rcases getElem?_concat_eq_some hk with hk | ⟨rfl, rfl⟩
    · obtain ⟨id', ins₀, m, h1, h2, h3⟩ := h.ctrl hk c hcj
      exact ⟨id', ins₀, m, hle.oldNew h1, h2, h3⟩
    · exact ⟨id, ins, s.code.length, by simp [hrec], hins, hc ▸ hcj⟩
  · rcases getElem?_concat_eq_some hk with hk | ⟨rfl, rfl⟩
    · exact hle.cseMap.subset (h.cseAll hk hcse)
    · simp [Fcx.push, hcse]
  · rcases getElem?_concat_eq_some hk with hk | ⟨rfl, rfl⟩ <;>
      rcases getElem?_concat_eq_some hk' with hk' | ⟨rfl, hj⟩
    · exact h.cseUniq hk hk' hcse
    · exact absurd (hj ▸ hk) (hnew (hj ▸ hcse) _)
    · exact absurd hk' (hnew hcse _)
    · rfl
  · simp only [Fcx.record_code, Fcx.push_code, List.length_append, List.length_singleton] at hk
    rcases Nat.lt_succ_iff_lt_or_eq.mp hk with hk | rfl
    · obtain ⟨id', h1⟩ := h.image hk
      exact ⟨id', hle.oldNew h1⟩
    · exact ⟨id, by simp [hrec]⟩
  · rw [Fcx.numVisited_record hid']
    simpa [Fcx.numVisited] using h.count

/-- A node step keeps the shape invariant. -/
theorem nodeStep (h : s.Wf T f) (hs : NodeStep T debug f s id t n) : t.Wf T f := by
  obtain ⟨ins, hins, hid, hin, p, -, ⟨⟨x, hx, rfl⟩, -, rfl⟩ | ⟨i, u, -, hi, hc, -, hd, rfl⟩⟩ :=
    nodeStep_cases hs
  · obtain ⟨m, hm⟩ := hin x hx
    have hn : s.newId x < s.code.length := by rw [Fcx.newId_of_getElem? hm]; exact h.lt hm
    have h' : ({ s with intern := p } : Fcx).Wf T f := h.of_eq rfl rfl rfl
    exact h'.record hid hn
  · have h' : (Fcx.enqueue T { s with intern := p } i).Wf T f := h.of_eq (by simp) (by simp) (by simp)
    have hid' : (Fcx.enqueue T { s with intern := p } i).oldNew[id]? = some none := by simpa using hid
    rcases Fcx.done_cases T { s with intern := p } i with ⟨-, idx, -, hk, hdone⟩ | ⟨hnew, hdone⟩ <;>
      rw [hdone] at hd <;> obtain ⟨rfl, rfl⟩ := Prod.mk.inj hd
    · exact h'.record hid' (by simpa using (List.getElem?_eq_some_iff.mp hk).1)
    · have := h'.pushRecord hid' hins (i := i) (fun x hx => ?_) hc (fun hcse k hk => ?_)
      · simpa using this
      · obtain ⟨y, hy, rfl⟩ := hi x hx
        obtain ⟨m, hm⟩ := hin y hy
        simpa [Fcx.newId_of_getElem? hm] using h.lt hm
      · simp only [Fcx.enqueue_code] at hk
        exact hnew hcse k (h.cseAll hk hcse) hk

end Fcx.Wf

end Fhk5
