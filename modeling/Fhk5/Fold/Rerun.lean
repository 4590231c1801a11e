import Fhk5.Fold.Canon

/-!
# A second `Fold::run`

Run the fold on a function it returned.  Every instruction is normal for that code, and
renaming keeps what the rules read at an input: whether it is a constant, and the
immediate of a `KINT`.  So no rule fires but the swap of `ADD` and `MUL` inputs, since the
new ids need not keep the old order (`foldLoop_renamed`).  Nor does a lookup in `cse_map`
hit: the renamed instructions of two old ones are equal only if the old ones are, and the
code has no two equal `is_cse` instructions.  Each node step therefore pushes the old
instruction renamed (`rerun_nodeStep`).

*Invariant.*  `Ins.Renamed` relates an old instruction to the one pushed for it: same
opcode, type and immediates, the inputs mapped through `old_new`, possibly swapped.
`Fcx.Sim` says that `old_new` is one to one, that each recorded id holds its instruction
renamed, and that the new code has one instruction per visited id.  It holds along the
second run, which cannot fail (`Fold.rerun_ok`, `Fold.rerun_sim`).

*Result.*  The second run maps the reachable ids one to one onto its code, with the
control slots fixed up (`Fold.rerun_code`), and everything it keeps is reachable
(`Fold.rerun_reach_all`), so a third run keeps the length (`Fold.rerun_length`).

Throughout, `is_cse` opcodes have no control slots (`OpTable.CseNoControls`): `fixup`
could otherwise make two `is_cse` instructions of the first run's code equal, and the
second run would merge them.
-/

namespace Fhk5

variable {T : OpTable}

/-! ## Renamed instructions -/

/-- `ins'` is `ins` with its inputs mapped through `old_new`, for `ADD` and `MUL` possibly
in the other order. -/
structure Ins.Renamed (T : OpTable) (oldNew : List (Option Nat)) (ins ins' : Ins) : Prop where
  opcode : ins'.opcode = ins.opcode
  ty : ins'.ty = ins.ty
  other : ∀ sl, sl ∉ ins.opcode.inputs T → ins'.get sl = ins.get sl
  inputs : (∀ sl ∈ ins.opcode.inputs T, oldNew[ins.get sl]? = some (some (ins'.get sl))) ∨
    (ins.opcode.isComm ∧ oldNew[ins.a]? = some (some ins'.b) ∧ oldNew[ins.b]? = some (some ins'.a))

namespace Ins.Renamed

variable {oldNew : List (Option Nat)} {ins ins' : Ins}

theorem mono (h : ins.Renamed T oldNew ins') {oldNew' : List (Option Nat)}
    (hle : ∀ {x m : Nat}, oldNew[x]? = some (some m) → oldNew'[x]? = some (some m)) :
    ins.Renamed T oldNew' ins' :=
  ⟨h.opcode, h.ty, h.other,
    h.inputs.imp (fun h sl hsl => hle (h sl hsl)) fun ⟨hc, ha, hb⟩ => ⟨hc, hle ha, hle hb⟩⟩

/-- An instruction without inputs is renamed to itself. -/
theorem eq_of_inputs (h : ins.Renamed T oldNew ins') (hn : ins.opcode.inputs T = []) :
    ins' = ins :=
  Ins.ext_get h.opcode h.ty fun sl => h.other sl (by simp [hn])

/-- The two inputs of `ADD` or `MUL`, in either order. -/
theorem pair (h : ins.Renamed T oldNew ins') (hc : ins.opcode.isComm) :
    (oldNew[ins.a]? = some (some ins'.a) ∧ oldNew[ins.b]? = some (some ins'.b)) ∨
      (oldNew[ins.a]? = some (some ins'.b) ∧ oldNew[ins.b]? = some (some ins'.a)) :=
  h.inputs.imp (fun h' => ⟨h' .a (by simp [Opcode.inputs_of_isComm hc]),
    h' .b (by simp [Opcode.inputs_of_isComm hc])⟩) fun ⟨_, ha, hb⟩ => ⟨ha, hb⟩

theorem swapInputs (h : ins.Renamed T oldNew ins') (hc : ins.opcode.isComm) :
    ins.Renamed T oldNew ins'.swapInputs := by
  refine ⟨h.opcode, h.ty, fun sl hsl => ?_, ?_⟩
  · have hc' : ins'.get .c = ins.get .c := h.other .c (by simp [Opcode.inputs_of_isComm hc])
    rw [Opcode.inputs_of_isComm hc] at hsl
    cases sl
    · simp at hsl
    · simp at hsl
    · exact hc'
  · rcases h.pair hc with ⟨ha, hb⟩ | ⟨ha, hb⟩
    · exact .inr ⟨hc, ha, hb⟩
    · refine .inl fun sl hsl => ?_
      rw [Opcode.inputs_of_isComm hc] at hsl
      simp only [List.mem_cons, List.mem_singleton, List.not_mem_nil, or_false] at hsl
      rcases hsl with rfl | rfl
      exacts [ha, hb]

/-- Two normal instructions of one code renamed to the same instruction are equal, when
`old_new` is one to one: a swap cannot hide a difference, since a normal `ADD` or `MUL`
orders its inputs. -/
theorem eq {code : List Ins} {i₁ i₂ j : Ins}
    (hinj : ∀ {x y m : Nat}, oldNew[x]? = some (some m) → oldNew[y]? = some (some m) → x = y)
    (h₁ : i₁.Renamed T oldNew j) (h₂ : i₂.Renamed T oldNew j) (hn₁ : Normal T code i₁)
    (hn₂ : Normal T code i₂) : i₁ = i₂ := by
  have hop : i₂.opcode = i₁.opcode := h₂.opcode.symm.trans h₁.opcode
  refine Ins.ext_get hop.symm (h₁.ty.symm.trans h₂.ty) fun sl => ?_
  by_cases hsl : sl ∈ i₁.opcode.inputs T
  swap
  · rw [← h₁.other sl hsl, h₂.other sl (hop ▸ hsl)]
  by_cases hc : i₁.opcode.isComm
  · have hc₂ : i₂.opcode.isComm := hop ▸ hc
    -- in the two mixed orders, the ordering of normal inputs makes them equal
    have cross : i₁.a = i₂.b → i₁.b = i₂.a → i₁.a = i₂.a ∧ i₁.b = i₂.b := fun e₁ e₂ => by
      obtain ⟨hca₁, hb₁⟩ := hn₁.comm_order hc
      obtain ⟨hca₂, hb₂⟩ := hn₂.comm_order hc₂
      have : ¬ i₁.b < i₁.a := fun hlt => by simpa [e₂, hca₂] using hb₁ hlt
      have : ¬ i₂.b < i₂.a := fun hlt => by simpa [← e₁, hca₁] using hb₂ hlt
      omega
    have hab : i₁.a = i₂.a ∧ i₁.b = i₂.b := by
      rcases h₁.pair hc with ⟨a₁, b₁⟩ | ⟨a₁, b₁⟩ <;> rcases h₂.pair hc₂ with ⟨a₂, b₂⟩ | ⟨a₂, b₂⟩
      · exact ⟨hinj a₁ a₂, hinj b₁ b₂⟩
      · exact cross (hinj a₁ b₂) (hinj b₁ a₂)
      · exact cross (hinj a₁ b₂) (hinj b₁ a₂)
      · exact ⟨hinj a₁ a₂, hinj b₁ b₂⟩
    rw [Opcode.inputs_of_isComm hc] at hsl
    simp only [List.mem_cons, List.mem_singleton, List.not_mem_nil, or_false] at hsl
    rcases hsl with rfl | rfl
    exacts [hab.1, hab.2]
  · have h₁' := h₁.inputs.resolve_right fun h => hc h.1
    have h₂' := h₂.inputs.resolve_right fun h => hc (hop ▸ h.1)
    exact hinj (h₁' sl hsl) (h₂' sl (hop ▸ hsl))

/-- An edge of `ins` maps to an edge of `ins'`, once `ins'` has its control slots fixed up. -/
theorem mem_edges (h : ins.Renamed T oldNew ins') {ins'' : Ins} (hf : ins'.Fixed T oldNew ins'')
    {x m : Nat} (hx : x ∈ ins.edges T) (hm : oldNew[x]? = some (some m)) :
    m ∈ ins''.edges T := by
  rcases List.mem_append.mp hx with hx | hx <;> obtain ⟨sl, hsl, rfl⟩ := List.mem_map.mp hx
  · refine List.mem_append_left _ (hf.inputs_eq ▸ ?_)
    rcases h.inputs with h' | ⟨hc, ha, hb⟩
    · cases (h' sl hsl).symm.trans hm
      exact List.mem_map_of_mem _ (h.opcode ▸ hsl)
    · rw [Ins.inputs_of_isComm (h.opcode ▸ hc)]
      rw [Opcode.inputs_of_isComm hc] at hsl
      simp only [List.mem_cons, List.mem_singleton, List.not_mem_nil, or_false] at hsl
      rcases hsl with rfl | rfl
      · cases ha.symm.trans hm; simp
      · cases hb.symm.trans hm; simp
  · have hsl' : sl ∉ ins.opcode.inputs T := fun h => Opcode.not_mem_controls_of_mem_inputs h hsl
    have := hf.controls sl (h.opcode ▸ hsl)
    rw [h.other sl hsl', hm] at this
    cases this
    exact List.mem_append_right _ (List.mem_map_of_mem _ (hf.opcode ▸ h.opcode ▸ hsl))

end Ins.Renamed

/-- Mapping the input slots through recorded ids renames an instruction. -/
theorem Ins.renamed_mapSlots {s : Fcx} {ins : Ins}
    (hin : ∀ x ∈ ins.inputs T, ∃ m, s.oldNew[x]? = some (some m)) :
    ins.Renamed T s.oldNew (ins.mapSlots s.newId (ins.opcode.inputs T)) := by
  have hget := Ins.get_mapSlots s.newId (ins.opcode.nodup_inputs (T := T)) ins
  refine ⟨Ins.opcode_mapSlots _ _ _, Ins.ty_mapSlots _ _ _, fun sl hsl => by simp [hget, hsl],
    .inl fun sl hsl => ?_⟩
  obtain ⟨m, hm⟩ := hin _ (Ins.mem_inputs hsl)
  rw [hget, if_pos hsl, hm, Fcx.newId_of_getElem? hm]

/-! ## The invariant of a second run -/

/-- The invariant of a run over `g` in which every node step pushes: `old_new` is one to
one, each recorded id holds its old instruction renamed, and there is one instruction per
visited id. -/
structure Fcx.Sim (T : OpTable) (g : Func) (s : Fcx) : Prop where
  inj : ∀ {i j m : Nat}, s.oldNew[i]? = some (some m) → s.oldNew[j]? = some (some m) → i = j
  code : ∀ {i m : Nat}, s.oldNew[i]? = some (some m) →
    ∃ ins ins', g.code[i]? = some ins ∧ s.code[m]? = some ins' ∧ ins.Renamed T s.oldNew ins'
  count : s.code.length = s.numVisited

variable {g : Func} {s t : Fcx} {debug : Bool} {p : Intern}

theorem Fcx.Sim.of_eq (h : s.Sim T g) (ho : t.oldNew = s.oldNew) (hc : t.code = s.code) :
    t.Sim T g := by
  obtain ⟨i, o, q, m, c⟩ := s
  obtain ⟨i', o', q', m', c'⟩ := t
  simp only at ho hc
  subst ho hc
  exact ⟨h.1, h.2, h.3⟩

theorem Fcx.Sim.init (p : Intern) (g : Func) : (Fold.init p g).Sim T g where
  inj h := absurd ⟨_, h⟩ (Fold.init_oldNew p g _)
  code h := absurd ⟨_, h⟩ (Fold.init_oldNew p g _)
  count := by simp [Fold.init, Fcx.numVisited, List.countP_replicate]

/-- Renaming keeps what the rules read at an input. -/
theorem Fcx.Sim.sameGuards (hs : s.Sim T g) {x m : Nat} (hx : s.oldNew[x]? = some (some m)) :
    SameGuards T g.code s.code x m := by
  obtain ⟨i, i', hi, hi', hr⟩ := hs.code hx
  refine ⟨by rw [isConstAt_of_getElem? hi', isConstAt_of_getElem? hi, hr.opcode], fun k => ?_⟩
  simp only [isKintAt, hi, hi']
  by_cases hk : i.opcode = .KINT
  · rw [hr.eq_of_inputs (by simp [hk, Opcode.inputs])]
  · have hk' : (i.opcode == .KINT) = false := by simpa using hk
    simp [hr.opcode, hk']

/-- In a second run the loop around `fold` gives the renamed instruction `Done`, possibly
after one swap of `ADD` or `MUL` inputs; it fails only when it runs out of fuel. -/
theorem foldLoop_renamed (debug : Bool) (hs : s.Sim T g) {ins : Ins} (hn : Normal T g.code ins)
    (hin : ∀ x ∈ ins.inputs T, ∃ m, s.oldNew[x]? = some (some m)) :
    ∃ j, (j = ins.mapSlots s.newId (ins.opcode.inputs T) ∨
        (ins.opcode.isComm ∧ j = (ins.mapSlots s.newId (ins.opcode.inputs T)).swapInputs)) ∧
      ∀ fuel, s.foldLoop T debug fuel (ins.mapSlots s.newId (ins.opcode.inputs T)) =
        .ok (s.done T j) ∨
        s.foldLoop T debug fuel (ins.mapSlots s.newId (ins.opcode.inputs T)) = .error .fuel := by
  have hget := Ins.get_mapSlots s.newId (ins.opcode.nodup_inputs (T := T)) ins
  have hg : ins.opcode.isArith → SameGuards T g.code s.code ins.a
      (ins.mapSlots s.newId (ins.opcode.inputs T)).a ∧
      SameGuards T g.code s.code ins.b (ins.mapSlots s.newId (ins.opcode.inputs T)).b := fun har => by
    have hsl : ∀ sl ∈ ins.opcode.inputs T, SameGuards T g.code s.code (ins.get sl)
        ((ins.mapSlots s.newId (ins.opcode.inputs T)).get sl) := fun sl h => by
      obtain ⟨m, hm⟩ := hin _ (Ins.mem_inputs h)
      rw [hget, if_pos h, Fcx.newId_of_getElem? hm]
      exact hs.sameGuards hm
    have hab := Opcode.inputs_of_isArith (T := T) har
    exact ⟨hsl .a (by simp [hab]), hsl .b (by simp [hab])⟩
  have hr := Ins.renamed_mapSlots hin
  generalize ins.mapSlots s.newId (ins.opcode.inputs T) = r at hr hg ⊢
  obtain ⟨hnorm, hswap⟩ := normal_rename hn hr.opcode hg
  cases hsw : swapsInputs T s.code r
  · refine ⟨r, .inl rfl, fun fuel => ?_⟩
    cases fuel with
    | zero => exact .inr rfl
    | succ fuel => exact .inl (by simp only [Fcx.foldLoop, fold_of_normal (hnorm hsw)])
  · have hc : ins.opcode.isComm := by
      simp only [swapsInputs, hr.opcode, Bool.and_eq_true] at hsw; exact hsw.1
    have hf : fold T debug s.intern s.code r = .ok (s.intern, .Again r.swapInputs) := by
      have : foldsConst T s.code r = false := by
        rw [← foldsConst_swapInputs]; exact (hswap hsw).1
      simp [fold, this, hsw]
    refine ⟨r.swapInputs, .inr ⟨hc, rfl⟩, fun fuel => ?_⟩
    match fuel with
    | 0 => exact .inr rfl
    | 1 => exact .inr (by simp only [Fcx.foldLoop, hf])
    | fuel + 2 => exact .inl (by simp only [Fcx.foldLoop, hf, fold_of_normal (hswap hsw)])

section
variable (hT : T.CseNoControls) (hg : g.Canon T)
include hT hg

/-- A node step of a second run pushes the node's instruction renamed. -/
theorem rerun_nodeStep (hw : s.Wf T g) (hs : s.Sim T g) {id n : Nat}
    (h : NodeStep T debug g s id t n) :
    ∃ ins j, g.code[id]? = some ins ∧ s.oldNew[id]? = some none ∧
      ins.Renamed T s.oldNew j ∧ n = s.code.length ∧
      t = ((s.enqueue T j).push T j).record id s.code.length := by
  obtain ⟨ins, fuel, u, hins, hid, hin, hfl, rfl⟩ := h
  obtain ⟨j, hj, hloop⟩ := foldLoop_renamed debug hs (hg.normal hins) hin
  have hr : ins.Renamed T s.oldNew j := by
    rcases hj with rfl | ⟨hc, rfl⟩
    exacts [Ins.renamed_mapSlots hin, (Ins.renamed_mapSlots hin).swapInputs hc]
  have hdone : s.done T j = (u, n) := by
    rcases hloop fuel with h | h <;> rw [h] at hfl
    · exact Except.ok.inj hfl
    · cases hfl
  -- no instruction of the code equals `j`: it would be an old instruction renamed, the same
  -- one, and it is not visited yet
  have hnew : j.opcode.isCse T → ∀ k, s.code[k]? ≠ some j := fun hc k hk => by
    obtain ⟨i', hi'⟩ := hw.image (List.getElem?_eq_some_iff.mp hk).1
    obtain ⟨ins', j', hins', hk', hr'⟩ := hs.code hi'
    obtain rfl : j' = j := Option.some.inj (hk'.symm.trans hk)
    obtain rfl := hr.eq hs.inj hr' (hg.normal hins) (hg.normal hins')
    have hc' : ins.opcode.isCse T := hr.opcode ▸ hc
    obtain rfl := hg.cseUniq hins hins' hc' (hT _ hc')
    simp [hid] at hi'
  rcases Fcx.done_cases T s j with ⟨hc, idx, -, hk, -⟩ | ⟨-, hd⟩
  · exact absurd hk (hnew hc idx)
  · rw [hd] at hdone
    obtain ⟨rfl, rfl⟩ := Prod.mk.inj hdone
    exact ⟨ins, j, hins, hid, hr, rfl, rfl⟩

/-- A node step of a second run keeps the invariant. -/
theorem Fcx.Sim.nodeStep (hw : s.Wf T g) (hs : s.Sim T g) {id n : Nat}
    (h : NodeStep T debug g s id t n) : t.Sim T g := by
  obtain ⟨ins, j, hins, hid, hr, -, rfl⟩ := rerun_nodeStep hT hg hw hs h
  have hid' : ((s.enqueue T j).push T j).oldNew[id]? = some none := by simpa using hid
  have hle := ((Fcx.le_enqueue T s j).trans (Fcx.le_push T _ j)).trans (Fcx.le_record hid' s.code.length)
  have hrec : ∀ y, (((s.enqueue T j).push T j).record id s.code.length).oldNew[y]? =
      if y = id then some (some s.code.length) else s.oldNew[y]? := fun y => by
    rw [Fcx.oldNew_record _ id _ y (List.getElem?_eq_some_iff.mp hid').1]; simp
  refine ⟨fun {a b m} ha hb => ?_, fun {i m} hi => ?_, ?_⟩
  · rw [hrec] at ha hb
    split at ha <;> split at hb
    · subst_vars; rfl
    · cases ha; exact absurd (hw.lt hb) (lt_irrefl _)
    · cases hb; exact absurd (hw.lt ha) (lt_irrefl _)
    · exact hs.inj ha hb
  · rw [hrec] at hi
    split at hi
    · cases hi; subst i
      exact ⟨ins, j, hins, by simp, hr.mono hle.oldNew⟩
    · obtain ⟨ins', j', h1, h2, h3⟩ := hs.code hi
      refine ⟨ins', j', h1, ?_, h3.mono hle.oldNew⟩
      simpa [List.getElem?_append_left (List.getElem?_eq_some_iff.mp h2).1] using h2
  · have : ((s.enqueue T j).push T j).numVisited = s.numVisited := by simp [Fcx.numVisited]
    rw [Fcx.numVisited_record hid', this, ← hs.count]
    simp

/-- The state of a second run: the shape, the invariant, and a queue of ids in range. -/
def Fcx.Rerun (T : OpTable) (g : Func) (s : Fcx) : Prop :=
  s.Wf T g ∧ s.Sim T g ∧ ∀ c ∈ s.next, c < g.code.length

omit hT in
theorem Fcx.Rerun.init (p : Intern) : (Fold.init p g).Rerun T g :=
  ⟨Fcx.Wf.init p g, Fcx.Sim.init p g, by simpa [Fold.init] using hg.entry⟩

/-- A node step of a second run keeps its state. -/
theorem Fcx.Rerun.nodeStep {id n : Nat} (hp : s.Rerun T g) (h : NodeStep T debug g s id t n) :
    t.Rerun T g := by
  have ⟨ins, _, _, hins, _⟩ := h
  refine ⟨hp.1.nodeStep h, hp.2.1.nodeStep hT hg hp.1 h, fun c hc => ?_⟩
  rw [nodeStep_next h hins] at hc
  rcases List.mem_append.mp hc with hc | hc
  exacts [hp.2.2 c hc, hg.controls ins (List.mem_iff_getElem?.mpr ⟨id, hins⟩) c hc]

omit hT hg in
theorem Fcx.Rerun.pop (hp : s.Rerun T g) {id : Nat} {rest : List Nat} (hn : s.next = id :: rest) :
    ({ s with next := rest } : Fcx).Rerun T g :=
  ⟨hp.1.of_eq rfl rfl rfl, hp.2.1.of_eq rfl rfl, fun c hc => hp.2.2 c (by simp [hn, hc])⟩

/-- A dequeue-and-visit of a second run keeps its state. -/
theorem Fcx.Rerun.visit {fuel id n : Nat} {rest : List Nat} (hp : s.Rerun T g)
    (hn : s.next = id :: rest)
    (hv : Fhk5.visit T debug g fuel { s with next := rest } id = .ok (t, n)) : t.Rerun T g := by
  obtain ⟨rank, hrank⟩ := hg.topo.acyclic T
  refine (visit_induct (fun id ins h x hx => (hrank id ins h).2 x hx) (Fcx.Rerun T g)
    (fun _ => True) (fun _ _ _ _ _ _ => trivial) (fun _ _ _ _ _ hp h => hp.nodeStep hT hg h)
    trivial (hp.pop hn) hv).1

/-- A second run does not fail. -/
theorem Fold.rerun_ok (debug : Bool) (p : Intern) : ∃ s h, Fold.run T debug p g = .ok (s, h) := by
  have ha := hg.topo.acyclic T
  obtain ⟨rank, hrank⟩ := ha
  have hlt : ∀ {id}, id < g.code.length → ∀ ins, g.code[id]? = some ins → ∀ x ∈ ins.inputs T,
      x < g.code.length := fun hid ins hins x hx => (hg.topo.lt T hins x hx).trans hid
  -- a visit fails only by running out of fuel
  have hvisit : ∀ {s : Fcx} {id rest e} {fuel : Nat}, s.Rerun T g → s.next = id :: rest →
      Fhk5.visit T debug g fuel { s with next := rest } id = .error e → e = .fuel := by
    intro s id rest e fuel hp hn hv
    refine visit_error_induct (fun id ins h x hx => (hrank id ins h).2 x hx) (Fcx.Rerun T g)
      (· < g.code.length) (fun _ ins hid hins => hlt hid ins hins)
      (fun _ _ _ _ _ hp h => hp.nodeStep hT hg h) (· = .fuel) rfl (fun {s id} hid hp => ?_)
      (fun {s id ins fuel e} _ hp hins hin hfl => ?_) (hp.2.2 id (by simp [hn])) (hp.pop hn) hv
    · constructor
      · simp [List.getElem?_eq_none_iff, hp.1.length, hid]
      · simp [List.getElem?_eq_none_iff, hid]
    · obtain ⟨j, -, hloop⟩ := foldLoop_renamed debug hp.2.1 (hg.normal hins) hin
      rcases hloop fuel with h | h <;> rw [h] at hfl <;> cases hfl
      rfl
  have hbfs : ∀ {e}, bfs T debug g (g.code.length + 1) (3 * g.code.length + 2) (Fold.init p g) =
      .error e → e = .fuel := fun h => bfs_error_induct (Fcx.Rerun T g) (· = .fuel) rfl
    (fun hp hn hv => hp.visit hT hg hn hv) (fun hp hn hv => hvisit hp hn hv)
    (Fcx.Rerun.init hg p) h
  cases hb : bfs T debug g (g.code.length + 1) (3 * g.code.length + 2) (Fold.init p g) with
  | error e =>
    have : Fold.run T debug p g = .error .fuel := by simp [Fold.run, hb, ← hbfs hb]
    exact absurd this (Fold.run_ne_fuel ⟨rank, hrank⟩ p)
  | ok s =>
    obtain ⟨h, hr⟩ := Fold.run_of_bfs ⟨rank, hrank⟩ hb
    exact ⟨s, h, hr⟩

/-- The buffers a second run ends with satisfy the invariant. -/
theorem Fold.rerun_sim {h : Func} (hr : Fold.run T debug p g = .ok (s, h)) : s.Sim T g :=
  (bfs_induct (Fcx.Rerun T g) (fun hp hn hv => hp.visit hT hg hn hv) (Fcx.Rerun.init hg p)
    (Fold.run_ok hr).1).1.2.1

/-- A second run maps each visited id to an index of its code holding the old instruction
renamed and then fixed up. -/
theorem Fold.rerun_code {h : Func} (hr : Fold.run T debug p g = .ok (s, h)) {id m : Nat}
    (hm : s.oldNew[id]? = some (some m)) :
    ∃ ins j ins', g.code[id]? = some ins ∧ s.code[m]? = some j ∧ ins.Renamed T s.oldNew j ∧
      h.code[m]? = some ins' ∧ j.Fixed T s.oldNew ins' := by
  obtain ⟨-, -, hlen, hrel, -⟩ := Fold.run_spec (hg.topo.acyclic T) hr
  obtain ⟨ins, j, hins, hj, hrn⟩ := (Fold.rerun_sim hT hg hr).code hm
  obtain ⟨ins', hins'⟩ : ∃ ins', h.code[m]? = some ins' :=
    Option.ne_none_iff_exists'.mp (by simp [List.getElem?_eq_none_iff, hlen,
      (List.getElem?_eq_some_iff.mp hj).1])
  obtain ⟨j', hj', hfix⟩ := hrel m ins' hins'
  cases hj.symm.trans hj'
  exact ⟨ins, j, ins', hins, hj, hrn, hins', hfix⟩

/-- Every instruction of the code of a second run is reachable from its entry. -/
theorem Fold.rerun_reach_all {h : Func} (hr : Fold.run T debug p g = .ok (s, h)) :
    ∀ k < h.code.length, h.Reach T k := by
  obtain ⟨hw, hreach, hlen, -, he⟩ := Fold.run_spec (hg.topo.acyclic T) hr
  -- the image of a reachable id is reachable
  have himg : ∀ {x}, g.Reach T x → ∀ {m}, s.oldNew[x]? = some (some m) → h.Reach T m := by
    intro x hx
    induction hx with
    | entry => intro m hm; cases hm.symm.trans he; exact .entry
    | edge hid hins hx' ih =>
      intro m hm
      obtain ⟨m', hm'⟩ := (hreach _).mpr hid
      obtain ⟨ins, j, ins', hins₀, -, hrn, hk, hfix⟩ := Fold.rerun_code hT hg hr hm'
      cases hins.symm.trans hins₀
      exact .edge (ih hm') hk (hrn.mem_edges hfix hx' hm)
  intro k hk
  obtain ⟨id, hid⟩ := hw.image (hlen ▸ hk)
  exact himg ((hreach id).mp ⟨k, hid⟩) hid

/-- A run over a function whose instructions are all reachable keeps its length. -/
theorem Fold.rerun_length (hall : ∀ k < g.code.length, g.Reach T k) {h : Func}
    (hr : Fold.run T debug p g = .ok (s, h)) : h.code.length = g.code.length := by
  obtain ⟨hw, hreach, hlen, -, -⟩ := Fold.run_spec (hg.topo.acyclic T) hr
  rw [hlen, (Fold.rerun_sim hT hg hr).count, ← hw.length, Fcx.numVisited,
    List.countP_eq_length]
  intro o ho
  obtain ⟨k, hk⟩ := List.getElem?_of_mem ho
  obtain ⟨m, hm⟩ := (hreach k).mpr (hall k (hw.length ▸ (List.getElem?_eq_some_iff.mp hk).1))
  cases hk.symm.trans hm
  rfl

end

end Fhk5
