import Fhk5.Fold.Result

/-!
# `Fold::run` does not depend on how the function numbers its instructions

Nothing in the pass compares or orders old ids.  `visit` follows the operand slots in their
order, the loop of `Fold::run` follows the queue, `fold` orders the inputs of `ADD` and
`MUL` by their new ids, and `cse_map` is searched by equality.  So renumbering the
instructions of a function by an injective `π`, every operand and control slot with
them, gives a function the pass treats the same way (`Fold.run_renumber`): the same new
code and entry and the same pool, each old id mapped to the new id of the id it renumbers,
or the same error.

During the two runs the buffers are related by `Fcx.Renumbered`: `old_new` is indexed
through `π`, the queue and the control slots of the new code (which `fixup` only rewrites
at the end) hold renumbered ids, and everything else is equal.  One lemma per operation on
the buffers keeps the relation; `fold` commutes with renumbering the control slots, since
it reads and builds no control instruction but returns one unchanged.  The two runs then
go in lockstep (`Lockstep`) through the loop around `fold`, the input loop, `visit` and
the loop of `Fold::run`, and `fixup` maps both codes to one.
-/

namespace Fhk5

/-! ## Runs in lockstep -/

section
variable {ε α β : Type}

/-- Two outcomes of runs in lockstep: the same error, or results related by `R`. -/
def Lockstep (R : α → β → Prop) : Except ε α → Except ε β → Prop
  | .error e, .error e' => e = e'
  | .ok a, .ok b => R a b
  | _, _ => False

theorem Lockstep.cases {R : α → β → Prop} {x : Except ε α} {y : Except ε β} (h : Lockstep R x y) :
    (∃ e, x = .error e ∧ y = .error e) ∨ ∃ a b, x = .ok a ∧ y = .ok b ∧ R a b := by
  cases x <;> cases y <;> simp_all [Lockstep]

end

variable {T : OpTable} {π : Nat → Nat}

/-! ## Renumbering an instruction -/

namespace Ins

/-- The instruction with its inputs and control successors renumbered by `π`. -/
def renumber (T : OpTable) (π : Nat → Nat) (ins : Ins) : Ins :=
  ins.mapSlots π (ins.opcode.inputs T ++ ins.opcode.controls T)

/-- The instruction with its control successors renumbered by `π`. -/
def renumberControls (T : OpTable) (π : Nat → Nat) (ins : Ins) : Ins :=
  ins.mapSlots π (ins.opcode.controls T)

@[simp] theorem opcode_renumberControls (ins : Ins) :
    (ins.renumberControls T π).opcode = ins.opcode := opcode_mapSlots _ _ _

@[simp] theorem ty_renumberControls (ins : Ins) : (ins.renumberControls T π).ty = ins.ty :=
  ty_mapSlots _ _ _

/-- Setting the first slot of a `mapSlots` is setting it before the rest. -/
theorem mapSlots_cons_set (g : Nat → Nat) {sl : Slot} {ss : List Slot} (hnd : (sl :: ss).Nodup)
    (ins : Ins) (x : Nat) : (ins.mapSlots g (sl :: ss)).set sl x = (ins.set sl x).mapSlots g ss := by
  have hsl : sl ∉ ss := (List.nodup_cons.mp hnd).1
  refine ext_get (by simp) (by simp) fun t => ?_
  rw [get_mapSlots g (List.nodup_cons.mp hnd).2]
  by_cases ht : t = sl
  · subst ht; simp [hsl]
  · rw [get_set_of_ne _ _ ht, get_mapSlots g hnd, get_set_of_ne _ _ ht]
    simp [ht]

theorem renumberControls_of_nil {ins : Ins} (h : ins.opcode.controls T = []) :
    ins.renumberControls T π = ins := by
  rw [renumberControls, h]; rfl

/-- Only an opcode of the table has control slots to renumber. -/
theorem renumberControls_of_ne_op {ins : Ins} (h : ∀ k, ins.opcode ≠ .op k) :
    ins.renumberControls T π = ins :=
  renumberControls_of_nil (Opcode.controls_of_ne_op h).2

theorem nodup_controls (op : Opcode) : (op.controls T).Nodup :=
  (op.nodup_inputs_append_controls T).sublist (List.sublist_append_right _ _)

theorem controls_renumberControls (ins : Ins) :
    (ins.renumberControls T π).controls T = (ins.controls T).map π := by
  simp only [controls, renumberControls, opcode_mapSlots, List.map_map]
  refine List.map_congr_left fun sl h => ?_
  simp [get_mapSlots π (nodup_controls ins.opcode) ins sl, h]

theorem renumberControls_injective (hπ : Function.Injective π) :
    Function.Injective (renumberControls T π) := fun i j h => by
  have ho : i.opcode = j.opcode := by simpa using congrArg Ins.opcode h
  refine ext_get ho (by simpa using congrArg Ins.ty h) fun sl => ?_
  have hs := congrArg (Ins.get · sl) h
  simp only [renumberControls, get_mapSlots π (nodup_controls _), ho] at hs
  split at hs
  exacts [hπ hs, hs]

end Ins

/-! ## `fold` and renumbered control slots -/

/-- `FoldStatus` with the instruction it carries mapped. -/
def FoldStatus.map (g : Ins → Ins) : FoldStatus → FoldStatus
  | .Done i => .Done (g i)
  | .Again i => .Again (g i)
  | .New n => .New n

variable {debug : Bool} {p p' : Intern} {code : List Ins} {r : Ins} {st : FoldStatus}

theorem kintvalue_renumberControls (p : Intern) (i : Ins) :
    kintvalue p (i.renumberControls T π) = kintvalue p i := by
  by_cases hc : i.opcode.controls T = []
  · rw [Ins.renumberControls_of_nil hc]
  · obtain ⟨n, hn⟩ : ∃ n, i.opcode = .op n := by cases h : i.opcode <;> simp_all [Opcode.controls]
    simp [kintvalue, hn]

theorem kfpvalue_renumberControls (p : Intern) (i : Ins) :
    kfpvalue p (i.renumberControls T π) = kfpvalue p i := by
  by_cases hc : i.opcode.controls T = []
  · rw [Ins.renumberControls_of_nil hc]
  · obtain ⟨n, hn⟩ : ∃ n, i.opcode = .op n := by cases h : i.opcode <;> simp_all [Opcode.controls]
    simp [kfpvalue, hn]

theorem isConstAt_renumberControls (code : List Ins) (v : Nat) :
    isConstAt T (code.map (Ins.renumberControls T π)) v = isConstAt T code v := by
  simp only [isConstAt, List.getElem?_map]
  cases code[v]? <;> simp

theorem isKintAt_renumberControls (code : List Ins) (v : Nat) (k : BitVec 32) :
    isKintAt (code.map (Ins.renumberControls T π)) v k = isKintAt code v k := by
  simp only [isKintAt, List.getElem?_map]
  rcases code[v]? with _ | i
  · rfl
  · by_cases ho : i.opcode = .KINT
    · rw [Option.map_some', Ins.renumberControls_of_ne_op (by simp [ho])]
    · have : (i.opcode == Opcode.KINT) = false := by simpa using ho
      simp [this]

/-- `fold` reads the code only through opcodes and constants, which renumbering the control
slots leaves alone. -/
theorem fold_map_renumberControls (r : Ins) :
    fold T debug p (code.map (Ins.renumberControls T π)) r = fold T debug p code r := by
  have hc : ∀ l r', foldConst debug p r.opcode r.ty (l.renumberControls T π) (r'.renumberControls T π) =
      foldConst debug p r.opcode r.ty l r' := fun l r' => by
    simp only [foldConst, Ins.ty_renumberControls, kintvalue_renumberControls, kfpvalue_renumberControls]
  simp only [fold, foldsConst, swapsInputs, isAddZero, isMulOne, isMulZero,
    isConstAt_renumberControls, isKintAt_renumberControls, List.getElem?_map]
  rcases code[r.a]? with _ | l <;> rcases code[r.b]? with _ | r' <;> simp [hc]

/-- The status `fold` returns for an instruction of a builtin opcode is no instruction of
the table. -/
theorem FoldStatus.map_fold_of_ne_op (hr : ∀ k, r.opcode ≠ .op k)
    (h : fold T debug p code r = .ok (p', st)) : st.map (Ins.renumberControls T π) = st := by
  rcases st with i | i | n
  · rcases (fold_done_normal h).2 with ⟨hl, -⟩ | rfl
    · rw [FoldStatus.map, Ins.renumberControls_of_ne_op (Opcode.ne_op_of_isLiteral hl)]
    · rw [FoldStatus.map, Ins.renumberControls_of_ne_op hr]
  · obtain ⟨-, rfl, -, -⟩ := fold_again h
    rw [FoldStatus.map, Ins.renumberControls_of_ne_op (by simpa using hr)]
  · rfl

/-- `fold` commutes with renumbering the control slots of the code and of the instruction. -/
theorem fold_renumberControls (r : Ins) :
    fold T debug p (code.map (Ins.renumberControls T π)) (r.renumberControls T π) =
      (fun x => (x.1, x.2.map (Ins.renumberControls T π))) <$> fold T debug p code r := by
  by_cases hr : ∀ k, r.opcode ≠ .op k
  · rw [Ins.renumberControls_of_ne_op hr, fold_map_renumberControls]
    rcases hf : fold T debug p code r with e | ⟨p', st⟩
    · rfl
    · rw [map_ok, FoldStatus.map_fold_of_ne_op hr hf]
  · -- an opcode of the table: no rule applies, before or after
    obtain ⟨k, hk⟩ : ∃ k, r.opcode = .op k := by simpa using hr
    have hn : ∀ (c : List Ins) (i : Ins), i.opcode = .op k → Normal T c i := fun c i hi =>
      normal_of_not_isArith (by simp [hi, Opcode.isArith]) (by simp [hi])
    rw [fold_of_normal (hn _ _ (by simpa using hk)), fold_of_normal (hn _ _ hk)]
    rfl

/-! ## The relation between the buffers -/

/-- `s'` is `s` in a run over the function renumbered by `π`: `old_new` is indexed through
`π`, the queue and the control slots of the new code are renumbered, and the pool and
`cse_map` are equal. -/
structure Fcx.Renumbered (T : OpTable) (π : Nat → Nat) (s s' : Fcx) : Prop where
  intern : s'.intern = s.intern
  length : s'.oldNew.length = s.oldNew.length
  oldNew : ∀ x, s'.oldNew[π x]? = s.oldNew[x]?
  next : s'.next = s.next.map π
  cseMap : s'.cseMap = s.cseMap
  code : s'.code = s.code.map (Ins.renumberControls T π)

namespace Fcx.Renumbered

variable {s s' : Fcx}

theorem withIntern (h : s.Renumbered T π s') (q : Intern) :
    ({ s with intern := q } : Fcx).Renumbered T π { s' with intern := q } :=
  ⟨rfl, h.length, h.oldNew, h.next, h.cseMap, h.code⟩

theorem withNext (h : s.Renumbered T π s') (rest : List Nat) :
    ({ s with next := rest } : Fcx).Renumbered T π { s' with next := rest.map π } :=
  ⟨h.intern, h.length, h.oldNew, rfl, h.cseMap, h.code⟩

theorem newId (h : s.Renumbered T π s') (x : Nat) : s'.newId (π x) = s.newId x := by
  simp only [Fcx.newId, h.oldNew]

theorem enqueue (h : s.Renumbered T π s') (i : Ins) :
    (s.enqueue T i).Renumbered T π (s'.enqueue T (i.renumberControls T π)) := by
  unfold Fcx.enqueue
  rw [Ins.opcode_renumberControls]
  split
  · exact ⟨h.intern, h.length, h.oldNew, by simp [h.next, Ins.controls_renumberControls],
      h.cseMap, h.code⟩
  · exact h

theorem push (h : s.Renumbered T π s') (i : Ins) :
    (s.push T i).Renumbered T π (s'.push T (i.renumberControls T π)) :=
  ⟨h.intern, h.length, h.oldNew, h.next, by simp [Fcx.push, h.cseMap, h.code], by simp [h.code]⟩

/-- `done` at renumbered buffers and instruction returns the same id: it finds an equal
instruction at the same index of `cse_map`, or pushes at the same index. -/
theorem done (hπ : Function.Injective π) (h : s.Renumbered T π s') (i : Ins) :
    (s'.done T (i.renumberControls T π)).2 = (s.done T i).2 ∧
      (s.done T i).1.Renumbered T π (s'.done T (i.renumberControls T π)).1 := by
  have he := h.enqueue i
  have hfind : (s'.enqueue T (i.renumberControls T π)).cseMap.find?
      (fun idx => (s'.enqueue T (i.renumberControls T π)).code[idx]? == some (i.renumberControls T π)) =
      (s.enqueue T i).cseMap.find? (fun idx => (s.enqueue T i).code[idx]? == some i) := by
    rw [he.cseMap, he.code]
    congr 1
    funext idx
    rw [List.getElem?_map]
    cases (s.enqueue T i).code[idx]? <;> simp [(Ins.renumberControls_injective hπ).eq_iff]
  unfold Fcx.done
  simp only [Ins.opcode_renumberControls, hfind]
  split
  · split
    · exact ⟨rfl, he⟩
    · exact ⟨by simp [h.code], he.push i⟩
  · exact ⟨by simp [h.code], he.push i⟩

/-- Recording at renumbered ids keeps the relation. -/
theorem record (hπ : Function.Injective π) (h : s.Renumbered T π s') (id n : Nat) :
    (s.record id n).Renumbered T π (s'.record (π id) n) := by
  -- `id` is in range in `s` exactly when `π id` is in range in `s'`
  have hlen : π id < s'.oldNew.length ↔ id < s.oldNew.length := by
    rw [← not_le, ← not_le, ← List.getElem?_eq_none_iff, ← List.getElem?_eq_none_iff, h.oldNew]
  refine ⟨h.intern, by simp [Fcx.record, h.length], fun x => ?_, h.next, h.cseMap, h.code⟩
  simp only [Fcx.record, List.getElem?_set, hπ.eq_iff, hlen, h.oldNew]

end Fcx.Renumbered

/-! ## The two runs in lockstep -/

variable {f f' : Func} {s s' : Fcx}

/-- The loop around `fold` at renumbered buffers and instruction. -/
theorem foldLoop_renumber (hπ : Function.Injective π) (fuel : Nat) :
    ∀ {s s' : Fcx} {r : Ins}, s.Renumbered T π s' →
      Lockstep (fun (u : Fcx × Nat) (u' : Fcx × Nat) => u.1.Renumbered T π u'.1 ∧ u'.2 = u.2)
        (s.foldLoop T debug fuel r) (s'.foldLoop T debug fuel (r.renumberControls T π)) := by
  induction fuel with
  | zero => intro s s' r _; exact rfl
  | succ fuel ih =>
    intro s s' r h
    have hf : fold T debug s'.intern s'.code (r.renumberControls T π) =
        (fun x => (x.1, x.2.map (Ins.renumberControls T π))) <$> fold T debug s.intern s.code r := by
      rw [h.intern, h.code, fold_renumberControls]
    unfold Fcx.foldLoop
    rw [hf]
    rcases fold T debug s.intern s.code r with e | ⟨q, i | i | n⟩ <;>
      simp only [map_ok, map_error, FoldStatus.map]
    · exact rfl
    · obtain ⟨h₁, h₂⟩ := (h.withIntern q).done hπ i
      exact ⟨h₂, h₁⟩
    · exact ih (h.withIntern q)
    · exact ⟨h.withIntern q, rfl⟩

/-- The input loop at renumbered buffers, on an instruction whose input slots still to visit
and the slots `cs` are renumbered, when each call is in lockstep at renumbered ids. -/
theorem visitInputs_renumber {v v' : Fcx → Nat → Except Halt (Fcx × Nat)}
    (hv : ∀ x {s s' : Fcx}, s.Renumbered T π s' →
      Lockstep (fun (u u' : Fcx × Nat) => u.1.Renumbered T π u'.1 ∧ u'.2 = u.2) (v s x) (v' s' (π x))) :
    ∀ {slots cs : List Slot} {s s' : Fcx} {ins : Ins}, (slots ++ cs).Nodup → s.Renumbered T π s' →
      Lockstep (fun (u u' : Fcx × Ins) => u.1.Renumbered T π u'.1 ∧ u'.2 = u.2.mapSlots π cs)
        (visitInputs v slots s ins) (visitInputs v' slots s' (ins.mapSlots π (slots ++ cs)))
  | [], _, _, _, _, _, h => show _ ∧ _ from ⟨h, rfl⟩
  | sl :: slots, cs, s, s', ins, hnd, h => by
    have hget : (ins.mapSlots π (sl :: slots ++ cs)).get sl = π (ins.get sl) := by
      rw [Ins.get_mapSlots π hnd]; simp
    simp only [visitInputs, hget]
    rcases (hv (ins.get sl) h).cases with ⟨e, he, he'⟩ | ⟨⟨t, x⟩, ⟨t', x'⟩, hx, hx', ht, rfl⟩
    · rw [he, he']; exact rfl
    · rw [hx, hx']
      dsimp only
      rw [List.cons_append, Ins.mapSlots_cons_set π (show (sl :: (slots ++ cs)).Nodup from hnd)]
      exact visitInputs_renumber hv (List.nodup_cons.mp hnd).2 ht

section
variable (hπ : Function.Injective π) (hcode : ∀ x, f'.code[π x]? = (f.code[x]?).map (Ins.renumber T π))
include hπ hcode

/-- `visit` of a renumbered function, at renumbered buffers and id. -/
theorem visit_renumber : ∀ {fuel : Nat} {s s' : Fcx} (id : Nat), s.Renumbered T π s' →
    Lockstep (fun (u u' : Fcx × Nat) => u.1.Renumbered T π u'.1 ∧ u'.2 = u.2)
      (visit T debug f fuel s id) (visit T debug f' fuel s' (π id))
  | 0, _, _, _, _ => rfl
  | fuel + 1, s, s', id, h => by
    unfold visit
    rw [h.oldNew id, hcode id]
    rcases s.oldNew[id]? with _ | (_ | n)
    · exact rfl
    · rcases f.code[id]? with _ | ins
      · exact rfl
      simp only [Option.map_some', Ins.renumber, Ins.opcode_mapSlots]
      rcases (visitInputs_renumber (fun x _ _ h' => visit_renumber x h')
          (ins.opcode.nodup_inputs_append_controls T) h).cases with
        ⟨e, he, he'⟩ | ⟨⟨t, j⟩, ⟨t', j'⟩, hj, hj', ht, rfl⟩
      · rw [he, he']; exact rfl
      rw [hj, hj']
      dsimp only
      -- the renamed instruction has the opcode of `ins`
      have hrc : j.mapSlots π (ins.opcode.controls T) = j.renumberControls T π := by
        rw [Ins.renumberControls, opcode_visitInputs hj]
      rw [hrc]
      rcases (foldLoop_renumber hπ (fuel + 1) (r := j) ht).cases with
        ⟨e, he, he'⟩ | ⟨⟨u, n⟩, ⟨u', n'⟩, hu, hu', hr, rfl⟩
      · rw [he, he']; exact rfl
      · rw [hu, hu']
        exact ⟨hr.record hπ id _, rfl⟩
    · exact ⟨h, rfl⟩

/-- The loop of `Fold::run` over a renumbered function, from renumbered buffers. -/
theorem bfs_renumber {fuel : Nat} : ∀ {k : Nat} {s s' : Fcx}, s.Renumbered T π s' →
    Lockstep (Fcx.Renumbered T π) (bfs T debug f fuel k s) (bfs T debug f' fuel k s')
  | 0, _, _, _ => rfl
  | k + 1, s, s', h => by
    unfold bfs
    rw [h.next]
    rcases hn : s.next with _ | ⟨id, rest⟩
    · exact h
    simp only [List.map_cons]
    rcases (visit_renumber hπ hcode id (h.withNext rest)).cases with
      ⟨e, he, he'⟩ | ⟨⟨t, n⟩, ⟨t', n'⟩, hv, hv', ht, -⟩
    · rw [he, he']; exact rfl
    · rw [hv, hv']
      exact bfs_renumber ht

end

/-- `fixup` of an instruction with renumbered control slots, through an `old_new` indexed
through `π`, gives the same instruction. -/
theorem fixupIns_renumber {o o' : List (Option Nat)} (ho : ∀ x, o'[π x]? = o[x]?) :
    ∀ {sls : List Slot} {ins : Ins}, sls.Nodup → fixupIns o' sls (ins.mapSlots π sls) = fixupIns o sls ins
  | [], _, _ => rfl
  | sl :: sls, ins, hnd => by
    have hget : (ins.mapSlots π (sl :: sls)).get sl = π (ins.get sl) := by
      rw [Ins.get_mapSlots π hnd]; simp
    simp only [fixupIns, hget, ho]
    split
    · rw [Ins.mapSlots_cons_set π hnd]
      exact fixupIns_renumber ho (List.nodup_cons.mp hnd).2
    · rfl

/-- `fixup` maps renumbered buffers to the code it maps the others to. -/
theorem fixup_renumber (h : s.Renumbered T π s') : fixup T s' = fixup T s := by
  have hins : ∀ ins : Ins, fixupIns s'.oldNew ((ins.renumberControls T π).opcode.controls T)
      (ins.renumberControls T π) = fixupIns s.oldNew (ins.opcode.controls T) ins := fun ins => by
    rw [Ins.opcode_renumberControls]
    exact fixupIns_renumber h.oldNew (Ins.nodup_controls _)
  unfold fixup
  rw [h.code]
  induction s.code with
  | nil => rfl
  | cons ins code ih => simp only [List.map_cons, List.mapM_cons, hins, ih]

/-- `Fold::run` does not depend on how the function numbers its instructions.  Let `f'` be
`f` with its instructions renumbered by an injective `π`: the instruction at `π x` is the
one at `x` with every input and control successor `y` replaced by `π y`, and the entry is
renumbered too.  Then `Fold::run` returns on `f'` the pool and the new function it returns
on `f`, or the same error; and each old id `π x` of `f'` gets the new id of `x`. -/
theorem Fold.run_renumber (hπ : Function.Injective π) (hlen : f'.code.length = f.code.length)
    (hcode : ∀ x, f'.code[π x]? = (f.code[x]?).map (Ins.renumber T π))
    (hentry : f'.entry = π f.entry) (debug : Bool) (p : Intern) :
    (fun r => (r.1.intern, r.2)) <$> Fold.run T debug p f' =
        (fun r => (r.1.intern, r.2)) <$> Fold.run T debug p f ∧
      ∀ s s' g g', Fold.run T debug p f = .ok (s, g) → Fold.run T debug p f' = .ok (s', g') →
        ∀ x, s'.oldNew[π x]? = s.oldNew[x]? := by
  -- `π` keeps the ids of the code in range and the others out of it
  have hrange : ∀ x, π x < f'.code.length ↔ x < f.code.length := fun x => by
    rw [← not_le, ← not_le, ← List.getElem?_eq_none_iff, ← List.getElem?_eq_none_iff, hcode x,
      Option.map_eq_none']
  have hinit : (Fold.init p f).Renumbered T π (Fold.init p f') :=
    ⟨rfl, by simp [Fold.init, hlen], fun x => by simp [Fold.init, List.getElem?_replicate, hrange],
      by simp [Fold.init, hentry], rfl, rfl⟩
  have hb : Lockstep (Fcx.Renumbered T π)
      (bfs T debug f (f.code.length + 1) (3 * f.code.length + 2) (Fold.init p f))
      (bfs T debug f' (f.code.length + 1) (3 * f.code.length + 2) (Fold.init p f')) :=
    bfs_renumber hπ hcode hinit
  unfold Fold.run
  rw [hlen]
  rcases hb.cases with ⟨e, he, he'⟩ | ⟨s, s', hs, hs', h⟩
  · rw [he, he']
    exact ⟨rfl, fun _ _ _ _ h₀ => nomatch h₀⟩
  -- both loops return, and `fixup` and the entry read the renumbered buffers alike
  rw [hs, hs']
  dsimp only
  rw [fixup_renumber h, hentry, h.oldNew]
  rcases fixup T s with e | code
  · exact ⟨rfl, fun _ _ _ _ h₀ => nomatch h₀⟩
  rcases s.oldNew[f.entry]? with _ | (_ | n)
  · exact ⟨rfl, fun _ _ _ _ h₀ => nomatch h₀⟩
  · exact ⟨rfl, fun _ _ _ _ h₀ => nomatch h₀⟩
  · refine ⟨by simp [h.intern], ?_⟩
    rintro _ _ _ _ ⟨⟩ ⟨⟩
    exact h.oldNew

/-- `Func.sampleCse` numbered backwards: `v0 = RET v1; v1 = SUB v3 v2; v2 = ADD v5 v4;
v3 = ADD v5 v4; v4 = PARAM 1; v5 = PARAM 0`, entered at `v0`.  Every user comes before its
operands. -/
def Func.sampleCseReversed : Func :=
  ⟨[⟨.op 0, .FX, 1, 0, 0⟩, ⟨.SUB, .I32, 3, 2, 0⟩, ⟨.ADD, .I32, 5, 4, 0⟩, ⟨.ADD, .I32, 5, 4, 0⟩,
    ⟨.op 3, .I32, 1, 0, 0⟩, ⟨.op 3, .I32, 0, 0, 0⟩], 0⟩

theorem Fold.run_renumber_sample :
    let π : Nat → Nat := fun x => if x < 6 then 5 - x else x
    Function.Injective π ∧
      (fun r => (r.1.intern, r.2)) <$> Fold.run OpTable.sample false ⟨[]⟩ Func.sampleCseReversed =
        (fun r => (r.1.intern, r.2)) <$> Fold.run OpTable.sample false ⟨[]⟩ Func.sampleCse ∧
      ∀ s s' g g', Fold.run OpTable.sample false ⟨[]⟩ Func.sampleCse = .ok (s, g) →
        Fold.run OpTable.sample false ⟨[]⟩ Func.sampleCseReversed = .ok (s', g') →
        ∀ x, s'.oldNew[π x]? = s.oldNew[x]? := by
  intro π
  have hπ : Function.Injective π := fun a b h => by
    simp only [π] at h
    split_ifs at h <;> omega
  refine ⟨hπ, Fold.run_renumber hπ
    (show Func.sampleCseReversed.code.length = Func.sampleCse.code.length from rfl) (fun x => ?_)
    rfl false ⟨[]⟩⟩
  rcases x with _ | _ | _ | _ | _ | _ | x <;> rfl

end Fhk5
