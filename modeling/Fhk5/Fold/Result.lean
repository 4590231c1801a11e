import Mathlib.Data.Set.Card
import Fhk5.Fold.Run

/-!
# What `Fold::run` produces

*Search.*  `Fcx.Closed` is the invariant of the loop as a graph search: a visited node has
its inputs visited and its control successors visited, queued or being visited, and so
has the entry; everything visited or queued is reachable.  A node step keeps it because
the node's inputs are visited first and a control instruction queues its successors
(`nodeStep_next`).  When the queue is empty, the visited ids are closed under every edge,
so they are exactly the reachable ids (`Fcx.Closed.visited_iff_reach`).

*Fixup.*  `fixupIns` rewrites the control slots of an instruction through `old_new` and
leaves every other slot alone (`Ins.Fixed`).  After the loop every control successor in
the new code is a successor of a visited instruction, hence visited, so `fixup` succeeds.

Together with the shape invariant `Fcx.Wf` these give the results about the function
`Fold::run` returns: which ids `old_new` maps and the order of the new code
(`Fold.run_reach`), that it has no two equal `is_cse` instructions (`Fold.run_cse_unique`),
that each of its instructions is the image of a reachable old one (`Fold.run_image`), and
so that it is no longer than the reachable part of the old code, since a node step pushes at
most one instruction (`Fold.run_length_le_reach`).
An image need not be reachable from the new entry: an operand is pushed before its user
is folded, and stays when the user collapses (`Fold.run_leaves_dead_consts`).
-/

namespace Fhk5

variable {T : OpTable} {debug : Bool} {f : Func} {p : Intern} {s t : Fcx}

/-! ## Visited ids -/

/-- `old_new[x]` is set. -/
def Fcx.Visited (s : Fcx) (x : Nat) : Prop := ∃ m, s.oldNew[x]? = some (some m)

/-- `x` is visited, queued, or the node being visited. -/
def Fcx.Seen (s : Fcx) (pend : Option Nat) (x : Nat) : Prop :=
  s.Visited x ∨ x ∈ s.next ∨ pend = some x

theorem Fcx.Le.visited (h : s.Le t) {x : Nat} (hx : s.Visited x) : t.Visited x :=
  let ⟨m, hm⟩ := hx; ⟨m, h.oldNew hm⟩

theorem Fcx.Le.seen (h : s.Le t) {pend : Option Nat} {x : Nat} (hx : s.Seen pend x) :
    t.Seen pend x := by
  rcases hx with hx | hx | hx
  exacts [.inl (h.visited hx), .inr (.inl (h.next.subset hx)), .inr (.inr hx)]

/-! ## The search invariant -/

/-- The invariant of the loop as a search from the entry; `pend` is the node being
visited. -/
structure Fcx.Closed (T : OpTable) (f : Func) (pend : Option Nat) (s : Fcx) : Prop where
  /-- A visited node has its inputs visited. -/
  inputs : ∀ {id : Nat} {ins : Ins}, s.Visited id → f.code[id]? = some ins →
    ∀ x ∈ ins.inputs T, s.Visited x
  /-- A visited node has its control successors seen. -/
  controls : ∀ {id : Nat} {ins : Ins}, s.Visited id → f.code[id]? = some ins →
    ∀ c ∈ ins.controls T, s.Seen pend c
  /-- The entry is seen. -/
  entry : s.Seen pend f.entry
  /-- Every visited node is reachable. -/
  sound : ∀ {id : Nat}, s.Visited id → f.Reach T id
  /-- Every queued node is reachable. -/
  queued : ∀ c ∈ s.next, f.Reach T c

namespace Fcx.Closed

variable {pend : Option Nat} {id n : Nat}

/-- A node step at a reachable node keeps the search invariant. -/
theorem nodeStep (h : s.Closed T f pend) (hr : f.Reach T id)
    (hs : NodeStep T debug f s id t n) : t.Closed T f pend := by
  have ⟨ins, _, _, hins, _, hin, _⟩ := hs
  have hle := hs.le
  have hnext := nodeStep_next hs hins
  -- a node visited after the step is the node, or was visited before
  have hvis : ∀ {y}, t.Visited y → y = id ∨ s.Visited y := fun ⟨m, hm⟩ => by
    rw [nodeStep_oldNew hs] at hm
    split at hm
    · exact .inl ‹_›
    · exact .inr ⟨m, hm⟩
  refine ⟨fun hy hy' x hx => ?_, fun hy hy' c hc => ?_, hle.seen h.entry, fun hy => ?_,
    fun c hc => ?_⟩
  · rcases hvis hy with rfl | hy
    · cases hins.symm.trans hy'
      exact hle.visited (hin x hx)
    · exact hle.visited (h.inputs hy hy' x hx)
  · rcases hvis hy with rfl | hy
    · cases hins.symm.trans hy'
      exact .inr (.inl (by rw [hnext]; exact List.mem_append_right _ hc))
    · exact hle.seen (h.controls hy hy' c hc)
  · rcases hvis hy with rfl | hy
    exacts [hr, h.sound hy]
  · rw [hnext] at hc
    rcases List.mem_append.mp hc with hc | hc
    exacts [h.queued c hc, .edge hr hins (List.mem_append_right _ hc)]

/-- `visit` of a reachable node keeps the search invariant and visits the node. -/
theorem visit (h : s.Closed T f pend) (ha : f.Acyclic T) (hr : f.Reach T id) {fuel : Nat}
    (hv : Fhk5.visit T debug f fuel s id = .ok (t, n)) : t.Closed T f pend ∧ t.Visited id := by
  obtain ⟨rank, hrk⟩ := ha
  obtain ⟨hc, -, hid, -⟩ := visit_induct (fun id ins h x hx => (hrk id ins h).2 x hx)
    (Fcx.Closed T f pend) (f.Reach T)
    (fun _ _ hq hins x hx => .edge hq hins (List.mem_append_left _ hx))
    (fun _ _ _ _ hq hp hs => hp.nodeStep hq hs) hr h hv
  exact ⟨hc, n, hid⟩

/-- Dequeuing a node makes it the node being visited. -/
theorem pop (h : s.Closed T f none) {rest : List Nat} (hn : s.next = id :: rest) :
    ({ s with next := rest } : Fcx).Closed T f (some id) := by
  have hseen : ∀ {c}, s.Seen none c → ({ s with next := rest } : Fcx).Seen (some id) c := by
    rintro c (hc | hc | hc)
    · exact .inl hc
    · rw [hn] at hc
      rcases List.mem_cons.mp hc with rfl | hc
      exacts [.inr (.inr rfl), .inr (.inl hc)]
    · cases hc
  exact ⟨h.inputs, fun hy hy' c hc => hseen (h.controls hy hy' c hc), hseen h.entry, h.sound,
    fun c hc => h.queued c (by simp [hn, hc])⟩

/-- Once the node being visited is visited, nothing is pending. -/
theorem settle (h : s.Closed T f (some id)) (hid : s.Visited id) : s.Closed T f none := by
  have hseen : ∀ {c}, s.Seen (some id) c → s.Seen none c := by
    rintro c (hc | hc | hc)
    · exact .inl hc
    · exact .inr (.inl hc)
    · cases hc; exact .inl hid
  exact ⟨h.inputs, fun hy hy' c hc => hseen (h.controls hy hy' c hc), hseen h.entry, h.sound,
    h.queued⟩

/-- The loop keeps the search invariant and empties the queue. -/
theorem bfs (h : s.Closed T f none) (ha : f.Acyclic T) {fuel k : Nat}
    (hb : Fhk5.bfs T debug f fuel k s = .ok t) : t.Closed T f none ∧ t.next = [] :=
  bfs_induct (Fcx.Closed T f none) (fun hs hn hv =>
    let hv' := (hs.pop hn).visit ha (hs.queued _ (by simp [hn])) hv
    hv'.1.settle hv'.2) h hb

/-- With the queue empty, the visited ids are closed under every edge, so they are the
reachable ids. -/
theorem visited_iff_reach (h : s.Closed T f none) (hn : s.next = []) (x : Nat) :
    s.Visited x ↔ f.Reach T x := by
  have hseen : ∀ {c}, s.Seen none c → s.Visited c := by
    rintro c (hc | hc | hc)
    · exact hc
    · simp [hn] at hc
    · cases hc
  refine ⟨h.sound, fun hr => ?_⟩
  induction hr with
  | entry => exact hseen h.entry
  | edge _ hins hx ih =>
    rcases List.mem_append.mp hx with hx | hx
    exacts [h.inputs ih hins _ hx, hseen (h.controls ih hins _ hx)]

end Fcx.Closed

/-! ## The start of a run -/

theorem Fold.init_oldNew (p : Intern) (f : Func) (x : Nat) :
    ¬ (Fold.init p f).Visited x := by
  rintro ⟨m, hm⟩
  simp [Fold.init, List.getElem?_replicate] at hm

theorem Fcx.Closed.init (p : Intern) (f : Func) : (Fold.init p f).Closed T f none :=
  ⟨fun hy => absurd hy (Fold.init_oldNew p f _), fun hy => absurd hy (Fold.init_oldNew p f _),
    .inr (.inl (by simp [Fold.init])), fun hy => absurd hy (Fold.init_oldNew p f _),
    fun c hc => by simp [Fold.init] at hc; exact hc ▸ .entry⟩

theorem Fcx.Wf.init (p : Intern) (f : Func) : (Fold.init p f).Wf T f where
  length := by simp [Fold.init]
  lt hy := absurd ⟨_, hy⟩ (Fold.init_oldNew p f _)
  topo hk := by simp [Fold.init] at hk
  ctrl hk := by simp [Fold.init] at hk
  cseAll hk := by simp [Fold.init] at hk
  cseUniq hk := by simp [Fold.init] at hk
  image hk := by simp [Fold.init] at hk
  count := by simp [Fold.init]

/-- After the loop the buffers have the shape of `Fcx.Wf`, the queue is empty, and the
visited ids are the reachable ones. -/
theorem bfs_init (ha : f.Acyclic T) {fuel k : Nat}
    (hb : bfs T debug f fuel k (Fold.init p f) = .ok s) :
    s.Wf T f ∧ s.Closed T f none ∧ s.next = [] := by
  exact ⟨bfs_nodeStep_induct ha (Fcx.Wf T f) (fun h => h.of_eq rfl rfl rfl) (fun h hs => h.nodeStep hs)
    (Fcx.Wf.init p f) hb, (Fcx.Closed.init p f).bfs ha hb⟩

/-! ## `fixup` -/

/-- `ins'` is `ins` with its control slots rewritten through `old_new`. -/
structure Ins.Fixed (T : OpTable) (oldNew : List (Option Nat)) (ins ins' : Ins) : Prop where
  opcode : ins'.opcode = ins.opcode
  ty : ins'.ty = ins.ty
  other : ∀ sl, sl ∉ ins.opcode.controls T → ins'.get sl = ins.get sl
  controls : ∀ sl ∈ ins.opcode.controls T, oldNew[ins.get sl]? = some (some (ins'.get sl))

/-- `fixupIns` over distinct slots that hold visited ids succeeds and rewrites exactly those
slots. -/
theorem fixupIns_spec {oldNew : List (Option Nat)} :
    ∀ {sls : List Slot} {ins : Ins}, sls.Nodup →
      (∀ sl ∈ sls, ∃ m, oldNew[ins.get sl]? = some (some m)) →
      ∃ ins', fixupIns oldNew sls ins = .ok ins' ∧ ins'.opcode = ins.opcode ∧ ins'.ty = ins.ty ∧
        (∀ sl, sl ∉ sls → ins'.get sl = ins.get sl) ∧
        ∀ sl ∈ sls, oldNew[ins.get sl]? = some (some (ins'.get sl))
  | [], ins, _, _ => ⟨ins, rfl, rfl, rfl, fun _ _ => rfl, by simp⟩
  | sl :: sls, ins, hnd, hv => by
    obtain ⟨hsl, hnd⟩ := List.nodup_cons.mp hnd
    obtain ⟨m, hm⟩ := hv sl (List.mem_cons_self _ _)
    have hget : ∀ sl' ∈ sls, (ins.set sl m).get sl' = ins.get sl' := fun sl' h' =>
      Ins.get_set_of_ne _ _ fun e => hsl (e ▸ h')
    obtain ⟨ins', h, hop, hty, hother, hctl⟩ := @fixupIns_spec _ sls (ins.set sl m) hnd
      fun sl' h' => hget sl' h' ▸ hv sl' (List.mem_cons_of_mem _ h')
    refine ⟨ins', by simp [fixupIns, hm, h], by simp [hop], by simp [hty], fun sl' h' => ?_, ?_⟩
    · rw [hother sl' fun h'' => h' (List.mem_cons_of_mem _ h'')]
      exact Ins.get_set_of_ne _ _ fun e => h' (e ▸ List.mem_cons_self _ _)
    · intro sl' h'
      rcases List.mem_cons.mp h' with rfl | h'
      · rw [hother sl' hsl, Ins.get_set_self]; exact hm
      · rw [← hget sl' h']; exact hctl sl' h'

/-- After the loop `fixup` succeeds, rewriting the control slots of each instruction of
the new code. -/
theorem fixup_ok (hw : s.Wf T f) (hc : s.Closed T f none) (hn : s.next = []) :
    ∃ code, fixup T s = .ok code ∧ code.length = s.code.length ∧
      ∀ (k : Nat) (ins' : Ins), code[k]? = some ins' →
        ∃ ins, s.code[k]? = some ins ∧ ins.Fixed T s.oldNew ins' := by
  refine mapM_ok fun ins hins => ?_
  obtain ⟨k, hk⟩ := List.getElem?_of_mem hins
  have hvis : ∀ sl ∈ ins.opcode.controls T, ∃ m, s.oldNew[ins.get sl]? = some (some m) := by
    intro sl hsl
    obtain ⟨id, ins₀, m, hid, hins₀, hc₀⟩ := hw.ctrl hk _ (List.mem_map_of_mem _ hsl)
    exact (hc.visited_iff_reach hn _).mpr ((hc.visited_iff_reach hn id).mp ⟨m, hid⟩ |>.edge hins₀
      (List.mem_append_right _ hc₀))
  obtain ⟨ins', h, hop, hty, hother, hctl⟩ :=
    fixupIns_spec ((ins.opcode.nodup_inputs_append_controls T).sublist
      (List.sublist_append_right _ _)) hvis
  exact ⟨ins', h, hop, hty, hother, hctl⟩

namespace Ins.Fixed

variable {oldNew : List (Option Nat)} {ins ins' : Ins}

theorem inputs_eq (h : ins.Fixed T oldNew ins') : ins'.inputs T = ins.inputs T := by
  simp only [Ins.inputs, h.opcode]
  exact List.map_congr_left fun sl hsl =>
    h.other sl (Opcode.not_mem_controls_of_mem_inputs hsl)

theorem mem_controls (h : ins.Fixed T oldNew ins') {c' : Nat} (hc : c' ∈ ins'.controls T) :
    ∃ c ∈ ins.controls T, oldNew[c]? = some (some c') := by
  simp only [Ins.controls, h.opcode, List.mem_map] at hc
  obtain ⟨sl, hsl, rfl⟩ := hc
  exact ⟨ins.get sl, List.mem_map_of_mem _ hsl, h.controls sl hsl⟩

/-- An instruction without control slots is left as it is. -/
theorem eq_of_controls (h : ins.Fixed T oldNew ins') (hc : ins.opcode.controls T = []) :
    ins' = ins :=
  Ins.ext_get h.opcode h.ty fun sl => h.other sl (by simp [hc])

end Ins.Fixed

/-- What a successful `Fold::run` is made of. -/
theorem Fold.run_ok {g : Func} (h : Fold.run T debug p f = .ok (s, g)) :
    bfs T debug f (f.code.length + 1) (3 * f.code.length + 2) (Fold.init p f) = .ok s ∧
      fixup T s = .ok g.code ∧ s.oldNew[f.entry]? = some (some g.entry) := by
  unfold Fold.run at h
  split at h
  · cases h
  rename_i s' hb
  split at h
  · cases h
  rename_i code hfx
  split at h
  · cases h; exact ⟨hb, hfx, ‹_›⟩
  · cases h

/-- What a successful `Fold::run` leaves: the buffers have the shape of `Fcx.Wf`, the
visited ids are the reachable ones, and the new code is the code of the buffers with its
control slots fixed up. -/
theorem Fold.run_spec (ha : f.Acyclic T) {g : Func} (h : Fold.run T debug p f = .ok (s, g)) :
    s.Wf T f ∧ (∀ id, s.Visited id ↔ f.Reach T id) ∧ g.code.length = s.code.length ∧
      (∀ (k : Nat) (ins' : Ins), g.code[k]? = some ins' →
        ∃ ins, s.code[k]? = some ins ∧ ins.Fixed T s.oldNew ins') ∧
      s.oldNew[f.entry]? = some (some g.entry) := by
  obtain ⟨hb, hfx, he⟩ := Fold.run_ok h
  obtain ⟨hw, hcl, hn⟩ := bfs_init ha hb
  obtain ⟨code, hfx', hlen, hrel⟩ := fixup_ok hw hcl hn
  cases hfx.symm.trans hfx'
  exact ⟨hw, hcl.visited_iff_reach hn, hlen, hrel, he⟩

/-- The code `Fold::run` returns is in order: operands come before their users. -/
theorem Fold.run_topo (ha : f.Acyclic T) {g : Func} (h : Fold.run T debug p f = .ok (s, g)) :
    g.Topo T := fun k hk x hx => by
  obtain ⟨hw, -, -, hrel, -⟩ := Fold.run_spec ha h
  obtain ⟨ins, hins, hfix⟩ := hrel k _ (List.getElem?_eq_getElem hk)
  exact hw.topo hins x (hfix.inputs_eq ▸ hx)

/-- `Fold::run` keeps at most one instruction per visited id. -/
theorem Fold.run_length_le (ha : f.Acyclic T) {g : Func}
    (h : Fold.run T debug p f = .ok (s, g)) :
    g.code.length ≤ s.numVisited ∧ s.numVisited ≤ f.code.length := by
  obtain ⟨hw, -, hlen, -, -⟩ := Fold.run_spec ha h
  exact ⟨hlen ▸ hw.count, hw.length ▸ s.numVisited_le⟩

theorem ncard_setOf_lt_eq (n : Nat) : {k | k < n}.ncard = n := by
  have h := Set.ncard_coe_Finset (Finset.range n)
  rwa [Finset.coe_range, Finset.card_range] at h

/-- `Fold::run` pushes at most one instruction per old id reachable from the entry, so the
new code is no longer than the reachable part of the old code, and no longer than the old
code.  The node step of an old id, its first visit and the only one that does work,
collapses the node (`New`, or a CSE hit) and pushes nothing, or pushes one instruction and
returns its index. -/
theorem Fold.run_length_le_reach (ha : f.Acyclic T) {g : Func}
    (h : Fold.run T debug p f = .ok (s, g)) :
    g.code.length ≤ {x | f.Reach T x}.ncard ∧ {x | f.Reach T x}.ncard ≤ f.code.length ∧
      ∀ {u t : Fcx} {id n : Nat} {ins : Ins}, NodeStep T debug f u id t n → f.code[id]? = some ins →
        (t.code = u.code ∧ ∃ x ∈ ins.inputs T, n = u.newId x) ∨
          (t.code = u.code ∧ ∃ i, i.opcode.isCse T ∧ u.code[n]? = some i) ∨
          ∃ i, t.code = u.code ++ [i] ∧ n = u.code.length := by
  obtain ⟨hw, hreach, hlen, -, -⟩ := Fold.run_spec ha h
  have hsub : {x | f.Reach T x} ⊆ {x | x < f.code.length} := fun x hx => by
    obtain ⟨m, hm⟩ := (hreach x).mpr hx
    exact hw.length ▸ (List.getElem?_eq_some_iff.mp hm).1
  have hfin := (Set.finite_lt_nat _).subset hsub
  -- every index of the new code is the new id of a reachable old id
  have himg : {k | k < g.code.length} ⊆ s.newId '' {x | f.Reach T x} := fun k hk => by
    obtain ⟨id, hid⟩ := hw.image (hlen ▸ hk)
    exact ⟨id, (hreach id).mp ⟨k, hid⟩, Fcx.newId_of_getElem? hid⟩
  refine ⟨?_, ?_, fun hs hins => nodeStep_code hs hins⟩
  · calc g.code.length = {k | k < g.code.length}.ncard := (ncard_setOf_lt_eq _).symm
      _ ≤ (s.newId '' {x | f.Reach T x}).ncard := Set.ncard_le_ncard himg (hfin.image _)
      _ ≤ {x | f.Reach T x}.ncard := Set.ncard_image_le hfin
  · exact (Set.ncard_le_ncard hsub (Set.finite_lt_nat _)).trans (ncard_setOf_lt_eq _).le

theorem Fold.run_length_le_reach_sample :
    Func.sample.Acyclic OpTable.sample ∧ ∃ s g,
      Fold.run OpTable.sample false ⟨[]⟩ Func.sample = .ok (s, g) ∧
      g.code.length ≤ {x | Func.sample.Reach OpTable.sample x}.ncard ∧
      {x | Func.sample.Reach OpTable.sample x}.ncard ≤ Func.sample.code.length :=
  have ha : Func.sample.Acyclic OpTable.sample := Func.Topo.acyclic _ (by decide)
  have h := @Fold.run_length_le_reach _ false _ ⟨[]⟩ _ ha _ rfl
  ⟨ha, _, _, rfl, h.1, h.2.1⟩

/-- After a successful loop, `fixup` and the new entry succeed. -/
theorem Fold.run_of_bfs (ha : f.Acyclic T)
    (hb : bfs T debug f (f.code.length + 1) (3 * f.code.length + 2) (Fold.init p f) = .ok s) :
    ∃ g, Fold.run T debug p f = .ok (s, g) := by
  obtain ⟨hw, hc, hn⟩ := bfs_init ha hb
  obtain ⟨code, hfx, -, -⟩ := fixup_ok hw hc hn
  obtain ⟨e, he⟩ := (hc.visited_iff_reach hn f.entry).mpr .entry
  exact ⟨⟨code, e⟩, by simp [Fold.run, hb, hfx, he]⟩

/-- The control successors and the entry of the code `Fold::run` returns are in range. -/
theorem Fold.run_inRange (ha : f.Acyclic T) {g : Func} (h : Fold.run T debug p f = .ok (s, g)) :
    (∀ ins ∈ g.code, ∀ c ∈ ins.controls T, c < g.code.length) ∧ g.entry < g.code.length := by
  obtain ⟨hw, -, hlen, hrel, he⟩ := Fold.run_spec ha h
  refine ⟨fun ins' hins' c' hc' => ?_, hlen ▸ hw.lt he⟩
  obtain ⟨k, hk⟩ := List.getElem?_of_mem hins'
  obtain ⟨ins, -, hfix⟩ := hrel k ins' hk
  obtain ⟨c, -, hcc⟩ := hfix.mem_controls hc'
  exact hlen ▸ hw.lt hcc

/-- Equal `is_cse` instructions without control slots in the code `Fold::run` returns are
at one index: `fixup` leaves them as `cse_map` saw them. -/
theorem Fold.run_eq_of_isCse (ha : f.Acyclic T) {g : Func} (h : Fold.run T debug p f = .ok (s, g))
    {j k : Nat} {ins : Ins} (hj : g.code[j]? = some ins) (hk : g.code[k]? = some ins)
    (hc : ins.opcode.isCse T) (hnc : ins.opcode.controls T = []) : j = k := by
  obtain ⟨hw, -, -, hrel, -⟩ := Fold.run_spec ha h
  obtain ⟨insj, hj', hfj⟩ := hrel j ins hj
  obtain ⟨insk, hk', hfk⟩ := hrel k ins hk
  rw [← hfj.eq_of_controls (hfj.opcode ▸ hnc)] at hj'
  rw [← hfk.eq_of_controls (hfk.opcode ▸ hnc)] at hk'
  exact hw.cseUniq hj' hk' hc

/-! ## The function `Fold::run` returns -/

/-- After the loop of `Fold::run`, `old_new` is set exactly on the ids reachable from the
entry through operand edges and control successors.  So the unwraps of `fixup` and of the
new entry succeed, and in the new code every operand comes before its user, and every
control successor and the new entry are in range. -/
theorem Fold.run_reach (ha : f.Acyclic T) {s : Fcx}
    (hb : bfs T debug f (f.code.length + 1) (3 * f.code.length + 2) (Fold.init p f) = .ok s) :
    (∀ id, s.Visited id ↔ f.Reach T id) ∧
      ∃ g : Func, Fold.run T debug p f = .ok (s, g) ∧
        (∀ (k : Nat) (ins : Ins), g.code[k]? = some ins → ∀ x ∈ ins.inputs T, x < k) ∧
        (∀ ins ∈ g.code, ∀ c ∈ ins.controls T, c < g.code.length) ∧ g.entry < g.code.length := by
  obtain ⟨-, hc, hn⟩ := bfs_init ha hb
  obtain ⟨g, hg⟩ := Fold.run_of_bfs ha hb
  exact ⟨hc.visited_iff_reach hn, g, hg, fun _ _ hk => (Fold.run_topo ha hg).lt T hk,
    Fold.run_inRange ha hg⟩

theorem Fold.run_reach_sample :
    Func.sample.Acyclic OpTable.sample ∧ ∃ s, bfs OpTable.sample false Func.sample
      (Func.sample.code.length + 1) (3 * Func.sample.code.length + 2) (Fold.init ⟨[]⟩ Func.sample) =
        .ok s ∧ ∀ id, s.Visited id ↔ Func.sample.Reach OpTable.sample id := by
  have ha : Func.sample.Acyclic OpTable.sample := Func.Topo.acyclic _ (by decide)
  obtain ⟨s, hb⟩ : ∃ s, bfs OpTable.sample false Func.sample (Func.sample.code.length + 1)
      (3 * Func.sample.code.length + 2) (Fold.init ⟨[]⟩ Func.sample) = .ok s := ⟨_, rfl⟩
  exact ⟨ha, s, hb, (Fold.run_reach ha hb).1⟩

/-- No two indices of the code `Fold::run` returns hold equal `is_cse` instructions, for
an opcode table whose `is_cse` opcodes have no control slots: `fixup` then leaves every
`is_cse` instruction as `cse_map` saw it. -/
theorem Fold.run_cse_unique (hT : T.CseNoControls)
    (ha : f.Acyclic T) {g : Func} (h : Fold.run T debug p f = .ok (s, g)) :
    ∀ (j k : Nat) (ins : Ins), g.code[j]? = some ins → g.code[k]? = some ins →
      ins.opcode.isCse T → j = k := by
  intro j k ins hj hk hc
  exact Fold.run_eq_of_isCse ha h hj hk hc (hT _ hc)

/-- The two equal additions are merged, and the code has no two equal `is_cse`
instructions. -/
theorem Fold.run_sampleCse_unique :
    OpTable.sample.CseNoControls ∧
      Func.sampleCse.Acyclic OpTable.sample ∧ ∃ s g,
        Fold.run OpTable.sample false ⟨[]⟩ Func.sampleCse = .ok (s, g) ∧
        g.code.length = 5 ∧ ∀ (j k : Nat) (ins : Ins), g.code[j]? = some ins → g.code[k]? = some ins →
          ins.opcode.isCse OpTable.sample → j = k := by
  have hT := OpTable.sample_cseNoControls
  have ha : Func.sampleCse.Acyclic OpTable.sample := Func.Topo.acyclic _ (by decide)
  exact ⟨hT, ha, _, _, rfl, rfl, @Fold.run_cse_unique _ false _ ⟨[]⟩ _ hT ha _ rfl⟩

/-- Every instruction of the code `Fold::run` returns is `old_new` of an old instruction
reachable from the old entry. -/
theorem Fold.run_image (ha : f.Acyclic T) {g : Func} (h : Fold.run T debug p f = .ok (s, g)) :
    ∀ k < g.code.length, ∃ id, f.Reach T id ∧ s.oldNew[id]? = some (some k) := by
  intro k hk
  obtain ⟨hw, hreach, hlen, -, -⟩ := Fold.run_spec ha h
  obtain ⟨id, hid⟩ := hw.image (hlen ▸ hk)
  exact ⟨id, (hreach id).mp ⟨k, hid⟩, hid⟩

theorem Fold.run_image_sample :
    Func.sample.Acyclic OpTable.sample ∧ ∃ s g,
      Fold.run OpTable.sample false ⟨[]⟩ Func.sample = .ok (s, g) ∧
      ∀ k < g.code.length, ∃ id, Func.sample.Reach OpTable.sample id ∧ s.oldNew[id]? = some (some k) :=
  have ha : Func.sample.Acyclic OpTable.sample := Func.Topo.acyclic _ (by decide)
  ⟨ha, _, _, rfl, @Fold.run_image _ false _ ⟨[]⟩ _ ha _ rfl⟩

/-- On the function `2 + 3` returned, the constants `2` and `3` are pushed before the
addition folds, and stay in the new code, unreachable from the new entry. -/
theorem Fold.run_leaves_dead_consts :
    let g : Func :=
      ⟨[Ins.KINT .I32 2, Ins.KINT .I32 3, Ins.KINT .I32 5, ⟨.op 0, .FX, 2, 0, 0⟩], 3⟩
    ∃ s, Fold.run OpTable.sample false ⟨[]⟩ Func.sample = .ok (s, g) ∧
      ¬ g.Reach OpTable.sample 0 := by
  refine ⟨_, rfl, fun h => ?_⟩
  -- the return and the constant `5` it reads are closed under edges
  have := Func.Reach.mem_of_closed _ (fun x => x = 2 ∨ x = 3) (.inr rfl)
    (fun id ins x hid hins hx => by
      rcases hid with rfl | rfl <;> simp only [List.getElem?_cons_succ] at hins <;> cases hins <;>
        simp_all [Ins.edges, Ins.inputs, Ins.controls, Ins.get, Opcode.inputs, Opcode.controls,
          OpTable.sample]) h
  omega

end Fhk5
