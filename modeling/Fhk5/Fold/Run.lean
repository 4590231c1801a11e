import Fhk5.Fold.Node

/-!
# `Fold::run`: the pass over one function

`Fold::run` clears the buffers, sizes `old_new` to the function, queues the entry and
visits the ids of the queue in FIFO order until it is empty.  Control instructions queue
their successors when they are `Done`, so the loop is a breadth-first search over the
control graph, and each `visit` a depth-first one over operands.  `fixup` then maps every
control slot of the new code through `old_new`, and the entry is mapped last.  Control
slots are fixed up late because a successor can be queued before it is visited.

The source reuses the buffers of one `Fold` across runs and asserts that the queue is
empty on entry; the model starts each run from fresh buffers, which is the same state.
`Fold.run` returns the buffers after the loop with the new function, so that `old_new`
can be spoken of.

The loop takes fuel `3 * len + 2`, and `visit` takes `len + 1`: `bfs_ne_fuel` and
`visit_ne_fuel` show that neither runs out on an acyclic function (`Fold.run_ne_fuel`).

`bfs_induct` is the induction over the loop: a property kept by every dequeue-and-visit
holds after the loop.  `bfs_nodeStep_induct` needs less: on an acyclic function, a
property that every node step keeps and that does not read the queue.  The error lemmas
(`visit_error_induct`, `bfs_error_induct`) say the same of failures: an error of the loop is
the error of some node step, the fuel, or an id out of range.

Only `fold` reads the build, so a result of `Fold::run` in a debug build is its result in a
release build (`Fold.run_of_debug`).
-/

namespace Fhk5

variable (T : OpTable)

/-- The loop of `Fold::run`: `while let Some(id) = next.pop_front() { visit(id) }`. -/
def bfs (debug : Bool) (f : Func) (fuel : Nat) : Nat → Fcx → Except Halt Fcx
  | 0, _ => .error .fuel
  | k + 1, s =>
    match s.next with
    | [] => .ok s
    | id :: rest =>
      match visit T debug f fuel { s with next := rest } id with
      | .error e => .error e
      | .ok (s, _) => bfs debug f fuel k s

/-- The inner loop of `fixup`: `*ctrl = old_new[*ctrl].unwrap()` for each control slot. -/
def fixupIns (oldNew : List (Option Nat)) : List Slot → Ins → Except Halt Ins
  | [], ins => .ok ins
  | sl :: sls, ins =>
    match oldNew[ins.get sl]? with
    | some (some n) => fixupIns oldNew sls (ins.set sl n)
    | _ => .error .panic

/-- `fixup`: map the control slots of the new code through `old_new`. -/
def fixup (s : Fcx) : Except Halt (List Ins) :=
  s.code.mapM fun ins => fixupIns s.oldNew (ins.opcode.controls T) ins

/-- The buffers at the start of a run: `old_new` sized to the function and all absent, the
entry queued. -/
def Fold.init (p : Intern) (f : Func) : Fcx :=
  ⟨p, List.replicate f.code.length none, [f.entry], [], []⟩

/-- `Fold::run`: the buffers after the loop, and the new function. -/
def Fold.run (debug : Bool) (p : Intern) (f : Func) : Except Halt (Fcx × Func) :=
  match bfs T debug f (f.code.length + 1) (3 * f.code.length + 2) (Fold.init p f) with
  | .error e => .error e
  | .ok s =>
    match fixup T s with
    | .error e => .error e
    | .ok code =>
      match s.oldNew[f.entry]? with
      | some (some e) => .ok (s, ⟨code, e⟩)
      | _ => .error .panic

/-! ## The induction over the loop -/

variable {T} {debug : Bool} {f : Func}

/-- A property kept by every dequeue-and-visit holds after the loop, whose queue is then
empty. -/
theorem bfs_induct {fuel : Nat} (P : Fcx → Prop)
    (hstep : ∀ {s id rest t n}, P s → s.next = id :: rest →
      visit T debug f fuel { s with next := rest } id = .ok (t, n) → P t) :
    ∀ {k s t}, P s → bfs T debug f fuel k s = .ok t → P t ∧ t.next = []
  | 0, _, _, _, h => by cases h
  | k + 1, s, t, hp, h => by
    unfold bfs at h
    split at h
    · rename_i hn; cases h; exact ⟨hp, hn⟩
    rename_i id rest hn
    split at h
    · cases h
    rename_i u n hv
    exact bfs_induct P hstep (hstep hp hn hv) h

/-- On an acyclic function, a property of states that every node step keeps, and that does
not read the queue, holds after the loop. -/
theorem bfs_nodeStep_induct (ha : f.Acyclic T) (P : Fcx → Prop)
    (hnext : ∀ {s : Fcx} {rest : List Nat}, P s → P { s with next := rest })
    (hstep : ∀ {s id t n}, P s → NodeStep T debug f s id t n → P t) {fuel k : Nat} {s t : Fcx}
    (hs : P s) (hb : bfs T debug f fuel k s = .ok t) : P t := by
  obtain ⟨rank, hr⟩ := ha
  exact (bfs_induct P (fun hs _ hv => (visit_induct (fun id ins h x hx => (hr id ins h).2 x hx) P
    (fun _ => True) (fun _ _ _ _ _ _ => trivial) (fun _ _ _ _ _ hp hs => hstep hp hs) trivial
    (hnext hs) hv).1) hs hb).1

/-! ## Errors

An error of the input loop is an error of a call of `v` from a state the calls before it
reached; an error of `visit` is one of the loop around `fold` at a node step, or the fuel,
or an id out of range; an error of the loop of `Fold::run` is one of a `visit`. -/

/-- An error of the input loop is an error of one call of `v`. -/
theorem visitInputs_error {P : Fcx → Prop} {X : Nat → Prop} {E : Halt → Prop}
    {v : Fcx → Nat → Except Halt (Fcx × Nat)}
    (hv : ∀ {s x t m}, X x → P s → v s x = .ok (t, m) → P t)
    (he : ∀ {s x e}, X x → P s → v s x = .error e → E e) :
    ∀ {slots : List Slot} {s : Fcx} {ins : Ins} {e : Halt}, slots.Nodup →
      (∀ sl ∈ slots, X (ins.get sl)) → P s → visitInputs v slots s ins = .error e → E e
  | [], _, _, _, _, _, _, h => by cases h
  | sl :: slots, s, ins, e, hnd, hX, hp, h => by
    obtain ⟨hsl, hnd⟩ := List.nodup_cons.mp hnd
    simp only [visitInputs] at h
    split at h
    · cases h; exact he (hX sl (List.mem_cons_self _ _)) hp ‹_›
    · refine visitInputs_error hv he hnd (fun sl' h' => ?_) (hv (hX sl (List.mem_cons_self _ _)) hp ‹_›) h
      have hne : sl' ≠ sl := fun e => hsl (e ▸ h')
      rw [Ins.get_set_of_ne _ _ hne]
      exact hX sl' (List.mem_cons_of_mem _ h')

/-- The induction over the errors of `visit`: from a state with a property every node step
keeps, at a node of `Q` with ids in range, `visit` fails only with the fuel or with an error
of the loop around `fold` at a node step. -/
theorem visit_error_induct {rank : Nat → Nat}
    (hrank : ∀ id ins, f.code[id]? = some ins → ∀ x ∈ ins.inputs T, rank x < rank id)
    (P : Fcx → Prop) (Q : Nat → Prop)
    (hQ : ∀ id ins, Q id → f.code[id]? = some ins → ∀ x ∈ ins.inputs T, Q x)
    (hstep : ∀ s id t n, Q id → P s → NodeStep T debug f s id t n → P t)
    (E : Halt → Prop) (hfuel : E .fuel)
    (hrange : ∀ {s id}, Q id → P s → s.oldNew[id]? ≠ none ∧ f.code[id]? ≠ none)
    (hfold : ∀ {s id ins fuel e}, Q id → P s → f.code[id]? = some ins →
      (∀ x ∈ ins.inputs T, ∃ m, s.oldNew[x]? = some (some m)) →
      s.foldLoop T debug fuel (ins.mapSlots s.newId (ins.opcode.inputs T)) = .error e → E e) :
    ∀ {fuel s id e}, Q id → P s → visit T debug f fuel s id = .error e → E e
  | 0, _, _, _, _, _, h => by cases h; exact hfuel
  | fuel + 1, s, id, e, hq, hp, h => by
    unfold visit at h
    split at h
    · exact absurd ‹_› (hrange hq hp).1
    · cases h
    split at h
    · exact absurd ‹_› (hrange hq hp).2
    rename_i ins hins
    have hX : ∀ sl ∈ ins.opcode.inputs T, Q (ins.get sl) ∧ rank (ins.get sl) < rank id :=
      fun sl h => ⟨hQ id ins hq hins _ (Ins.mem_inputs h), hrank id ins hins _ (Ins.mem_inputs h)⟩
    have hv : ∀ {s x t m}, Q x ∧ rank x < rank id → P s →
        visit T debug f fuel s x = .ok (t, m) →
        P t ∧ s.Le t ∧ t.oldNew[x]? = some (some m) ∧ Fcx.SetsBelow rank s t (rank x) :=
      fun hx hp h => visit_induct hrank P Q hQ hstep hx.1 hp h
    split at h
    · cases h
      exact visitInputs_error (fun hx hp h => (hv hx hp h).1)
        (fun hx hp h => visit_error_induct hrank P Q hQ hstep E hfuel hrange hfold hx.1 hp h)
        (ins.opcode.nodup_inputs) hX hp ‹_›
    rename_i s₁ ins₁ hin
    obtain ⟨hp₁, -, hrec, rfl, -⟩ := visitInputs_spec hv (ins.opcode.nodup_inputs) hX hp hin
    split at h
    · cases h
      refine hfold hq hp₁ hins (fun x hx => ?_) ‹_›
      obtain ⟨sl, hsl, rfl⟩ := List.mem_map.mp hx
      exact hrec sl hsl
    · cases h

/-- An error of the loop of `Fold::run` is the fuel or an error of one `visit`. -/
theorem bfs_error_induct {fuel : Nat} (P : Fcx → Prop) (E : Halt → Prop) (hfuel : E .fuel)
    (hstep : ∀ {s id rest t n}, P s → s.next = id :: rest →
      visit T debug f fuel { s with next := rest } id = .ok (t, n) → P t)
    (herr : ∀ {s id rest e}, P s → s.next = id :: rest →
      visit T debug f fuel { s with next := rest } id = .error e → E e) :
    ∀ {k s e}, P s → bfs T debug f fuel k s = .error e → E e
  | 0, _, _, _, h => by cases h; exact hfuel
  | k + 1, s, e, hp, h => by
    unfold bfs at h
    split at h
    · cases h
    rename_i id rest hn
    split at h
    · cases h; exact herr hp hn ‹_›
    · exact bfs_error_induct P E hfuel hstep herr (hstep hp hn ‹_›) h

/-! ## Termination

`visit` recurses along operand edges only, so on an acyclic function fuel above the rank of
the node is enough; the loop around `fold` folds at most twice.  Each turn of the loop
dequeues one id, and each node step queues at most three ids but visits one, so
`|next| + 3 * (ids not visited)` drops by one per turn. -/

/-- The loop around `fold` folds at most twice: fuel `2` is enough, and `1` for an opcode
that is never swapped. -/
theorem foldLoop_ne_fuel {fuel : Nat} {s : Fcx} {ins : Ins}
    (hfuel : 2 ≤ fuel ∨ (0 < fuel ∧ ins.opcode.isComm = false)) :
    s.foldLoop T debug fuel ins ≠ .error .fuel := by
  obtain ⟨k, rfl⟩ : ∃ k, fuel = k + 1 := ⟨fuel - 1, by omega⟩
  unfold Fcx.foldLoop
  rcases hf : fold T debug s.intern s.code ins with e | ⟨p, i | j | m⟩
  · simp [fold_error hf]
  · simp
  · obtain ⟨-, rfl, -, hs⟩ := fold_again hf
    have hc : ins.opcode.isComm := by simp_all [swapsInputs]
    have : 1 ≤ k := by rcases hfuel with h | ⟨-, h⟩ <;> simp_all
    obtain ⟨k, rfl⟩ : ∃ k', k = k' + 1 := ⟨k - 1, by omega⟩
    simp only
    unfold Fcx.foldLoop
    rcases hf' : fold T debug p s.code ins.swapInputs with e | ⟨p', i | j | m⟩
    · simp [fold_error hf']
    · simp
    · exact absurd hf' (fold_swapInputs_ne_again hf)
    · simp
  · simp

theorem opcode_visitInputs {v : Fcx → Nat → Except Halt (Fcx × Nat)} :
    ∀ {slots : List Slot} {s t : Fcx} {ins ins' : Ins},
      visitInputs v slots s ins = .ok (t, ins') → ins'.opcode = ins.opcode
  | [], _, _, _, _, h => by cases h; rfl
  | sl :: slots, s, t, ins, ins', h => by
    simp only [visitInputs] at h
    split at h
    · cases h
    · exact (opcode_visitInputs h).trans (Ins.opcode_set _ _ _)

/-- `visit` with fuel above the rank of the node never runs out. -/
theorem visit_ne_fuel {rank : Nat → Nat}
    (hrank : ∀ id ins, f.code[id]? = some ins → ∀ x ∈ ins.inputs T, rank x < rank id) :
    ∀ {fuel s id}, 0 < fuel → (∀ ins, f.code[id]? = some ins → rank id < fuel) →
      visit T debug f fuel s id ≠ .error .fuel
  | 0, _, _, h, _ => absurd h (lt_irrefl 0)
  | fuel + 1, s, id, _, hr => by
    unfold visit
    split
    · simp
    · simp
    split
    · simp
    rename_i ins hins
    have hlt : ∀ x ∈ ins.inputs T, rank x < fuel := fun x hx =>
      lt_of_lt_of_le (hrank id ins hins x hx) (Nat.lt_succ_iff.mp (hr ins hins))
    split
    · rename_i e he
      intro h; cases h
      exact visitInputs_error (P := fun _ => True) (X := fun x => rank x < fuel)
        (E := (· ≠ .fuel)) (fun _ _ _ => trivial)
        (fun hx _ h e => visit_ne_fuel hrank (by omega) (fun _ _ => hx) (e ▸ h))
        (ins.opcode.nodup_inputs) (fun sl h => hlt _ (Ins.mem_inputs h)) trivial he rfl
    rename_i s₁ ins₁ hin
    split
    · rename_i e he
      intro h; cases h
      refine foldLoop_ne_fuel ?_ he
      rw [opcode_visitInputs hin]
      cases hc : ins.opcode.isComm
      · exact .inr ⟨by omega, rfl⟩
      · have := hlt ins.a (by rw [Ins.inputs_of_isComm hc]; simp)
        omega
    · simp

/-- The measure of the loop: the queue, and three for each id not visited yet. -/
def Fcx.potential (s : Fcx) : Nat := s.next.length + 3 * (s.oldNew.length - s.numVisited)

/-- A node step queues at most three ids and visits one. -/
theorem nodeStep_potential {s t : Fcx} {id n : Nat} (h : NodeStep T debug f s id t n) :
    t.potential ≤ s.potential := by
  have ⟨ins, _, _, hins, _⟩ := h
  have hnext := nodeStep_next h hins
  have hcount := nodeStep_numVisited h
  have hlen := h.le.length
  have hle := t.numVisited_le
  have h3 : (ins.controls T).length ≤ 3 := by
    simpa [Ins.controls] using Opcode.length_controls_le (T := T) ins.opcode
  simp only [Fcx.potential, hnext, List.length_append] at *
  omega

/-- `visit` does not raise the measure. -/
theorem visit_potential (ha : f.Acyclic T) {fuel : Nat} {s t : Fcx} {id n : Nat}
    (hv : visit T debug f fuel s id = .ok (t, n)) :
    t.potential ≤ s.potential ∧ t.oldNew.length = s.oldNew.length := by
  obtain ⟨rank, hr⟩ := ha
  obtain ⟨hp, hle, -⟩ := visit_induct (fun id ins h x hx => (hr id ins h).2 x hx)
    (fun u => u.potential ≤ s.potential) (fun _ => True) (fun _ _ _ _ _ _ => trivial)
    (fun _ _ _ _ _ hp hs => (nodeStep_potential hs).trans hp) trivial (le_refl _) hv
  exact ⟨hp, hle.length⟩

/-- The loop with fuel above the measure never runs out. -/
theorem bfs_ne_fuel (ha : f.Acyclic T) :
    ∀ {k s}, s.oldNew.length = f.code.length → s.potential < k →
      bfs T debug f (f.code.length + 1) k s ≠ .error .fuel
  | 0, _, _, h => absurd h (Nat.not_lt_zero _)
  | k + 1, s, hl, hk => by
    unfold bfs
    split
    · simp
    rename_i id rest hn
    obtain ⟨rank, hr⟩ := ha
    split
    · rename_i e he
      intro h; cases h
      exact visit_ne_fuel (fun id ins h x hx => (hr id ins h).2 x hx) (Nat.succ_pos _)
        (fun ins h => Nat.lt_succ_of_lt (hr id ins h).1) he
    · rename_i t n hv
      obtain ⟨hp, hlt⟩ := visit_potential ⟨rank, hr⟩ hv
      have hpop : ({ s with next := rest } : Fcx).potential + 1 = s.potential := by
        simp [Fcx.potential, Fcx.numVisited, hn]; omega
      exact bfs_ne_fuel ⟨rank, hr⟩ (hlt.trans hl) (by omega)

theorem fixupIns_error {oldNew : List (Option Nat)} {e : Halt} :
    ∀ {sls : List Slot} {ins : Ins}, fixupIns oldNew sls ins = .error e → e = .panic
  | [], _, h => by cases h
  | sl :: sls, ins, h => by
    simp only [fixupIns] at h
    split at h
    · exact fixupIns_error h
    · cases h; rfl

/-- On an acyclic function `Fold::run` fails only by panicking. -/
theorem Fold.run_error (ha : f.Acyclic T) {p : Intern} {e : Halt}
    (h : Fold.run T debug p f = .error e) : e = .panic := by
  unfold Fold.run at h
  split at h
  · rename_i he
    cases h
    cases e
    · rfl
    -- the measure starts at `1 + 3 * len`
    refine absurd he (bfs_ne_fuel ha (by simp [Fold.init]) ?_)
    simp [Fold.init, Fcx.potential, Fcx.numVisited, List.countP_replicate]
    omega
  split at h
  · cases h; exact mapM_error (fun _ _ h => fixupIns_error h) ‹_›
  split at h
  · cases h
  · cases h; rfl

/-- `Fold::run` terminates on an acyclic function: the model never runs out of fuel. -/
theorem Fold.run_ne_fuel (ha : f.Acyclic T) (p : Intern) :
    Fold.run T debug p f ≠ .error .fuel := fun h => by
  cases Fold.run_error ha h

theorem Fold.run_sample_ne_fuel :
    Func.sample.Acyclic OpTable.sample ∧
      Fold.run OpTable.sample false ⟨[]⟩ Func.sample ≠ .error .fuel :=
  ⟨Func.Topo.acyclic _ (by decide), Fold.run_ne_fuel (Func.Topo.acyclic _ (by decide)) _⟩

/-! ## Builds

Only `fold` reads the build: a debug build of the pass either panics or returns what the
release build returns. -/

theorem Fcx.foldLoop_of_debug : ∀ {fuel : Nat} {s : Fcx} {ins : Ins} {r : Fcx × Nat},
    s.foldLoop T debug fuel ins = .ok r → s.foldLoop T false fuel ins = .ok r
  | 0, _, _, _, h => by cases h
  | fuel + 1, s, ins, r, h => by
    unfold Fcx.foldLoop at h ⊢
    split at h
    · cases h
    all_goals rename_i hf; rw [fold_of_debug hf]
    · exact Fcx.foldLoop_of_debug h
    · exact h
    · exact h

theorem visitInputs_of_imp {v v' : Fcx → Nat → Except Halt (Fcx × Nat)}
    (hv : ∀ {s x r}, v s x = .ok r → v' s x = .ok r) :
    ∀ {slots : List Slot} {s : Fcx} {ins : Ins} {r : Fcx × Ins},
      visitInputs v slots s ins = .ok r → visitInputs v' slots s ins = .ok r
  | [], _, _, _, h => h
  | sl :: slots, s, ins, r, h => by
    simp only [visitInputs] at h ⊢
    split at h
    · cases h
    · rw [hv ‹_›]; exact visitInputs_of_imp hv h

theorem visit_of_debug : ∀ {fuel : Nat} {s : Fcx} {id : Nat} {r : Fcx × Nat},
    visit T debug f fuel s id = .ok r → visit T false f fuel s id = .ok r
  | 0, _, _, _, h => by cases h
  | fuel + 1, s, id, r, h => by
    unfold visit at h ⊢
    split at h
    · cases h
    · exact h
    split at h
    · cases h
    split at h
    · cases h
    rw [visitInputs_of_imp visit_of_debug ‹_›]
    dsimp only
    split at h
    · cases h
    rw [Fcx.foldLoop_of_debug ‹_›]
    exact h

theorem bfs_of_debug {fuel : Nat} : ∀ {k : Nat} {s t : Fcx},
    bfs T debug f fuel k s = .ok t → bfs T false f fuel k s = .ok t
  | 0, _, _, h => by cases h
  | k + 1, s, t, h => by
    unfold bfs at h ⊢
    split at h
    · exact h
    split at h
    · cases h
    rw [visit_of_debug ‹_›]
    exact bfs_of_debug h

/-- A result of `Fold::run` in a debug build is its result in a release build. -/
theorem Fold.run_of_debug {p : Intern} {r : Fcx × Func} (h : Fold.run T debug p f = .ok r) :
    Fold.run T false p f = .ok r := by
  unfold Fold.run at h ⊢
  split at h
  · cases h
  rw [bfs_of_debug ‹_›]
  exact h

end Fhk5
