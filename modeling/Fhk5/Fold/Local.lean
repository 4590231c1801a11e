import Fhk5.Fold.Result

/-!
# `Fold::run` reads only what the entry reaches

`visit` reads the function at the node it visits and, through its recursion, at the inputs
of that node; the loop of `Fold::run` visits only queued ids, and the search invariant
`Fcx.Closed` says that they are reachable.  So two functions of one length and entry that
agree on every instruction the entry of the first reaches run in lockstep: each `visit` and
the whole loop return the same, errors included (`visit_congr`, `bfs_congr`), and so does
`Fold::run` (`Fold.run_congr_reach`).  Whatever the unreachable instructions hold, even an
operand cycle, changes nothing of what the pass returns, nor whether it panics.
-/

namespace Fhk5

variable {T : OpTable} {debug : Bool} {f f' : Func}

/-- The input loop returns the same for two calls that agree at the slots it reads. -/
theorem visitInputs_congr {v v' : Fcx → Nat → Except Halt (Fcx × Nat)} :
    ∀ {slots : List Slot} {s : Fcx} {ins : Ins}, slots.Nodup →
      (∀ sl ∈ slots, ∀ s, v' s (ins.get sl) = v s (ins.get sl)) →
      visitInputs v' slots s ins = visitInputs v slots s ins
  | [], _, _, _, _ => rfl
  | sl :: slots, s, ins, hnd, hv => by
    obtain ⟨hsl, hnd⟩ := List.nodup_cons.mp hnd
    simp only [visitInputs, hv sl (List.mem_cons_self _ _)]
    split
    · rfl
    · refine visitInputs_congr hnd fun sl' h' s' => ?_
      rw [Ins.get_set_of_ne _ _ (fun e : sl' = sl => hsl (e ▸ h'))]
      exact hv sl' (List.mem_cons_of_mem _ h') s'

section
variable (hcode : ∀ x, f.Reach T x → f'.code[x]? = f.code[x]?)
include hcode

/-- `visit` of a reachable node reads only reachable instructions. -/
theorem visit_congr : ∀ {fuel : Nat} {s : Fcx} {id : Nat}, f.Reach T id →
    visit T debug f' fuel s id = visit T debug f fuel s id
  | 0, _, _, _ => rfl
  | fuel + 1, s, id, hr => by
    unfold visit
    rw [hcode id hr]
    split
    · rfl
    · rfl
    · split
      · rfl
      · rename_i ins hins
        rw [visitInputs_congr ins.opcode.nodup_inputs fun sl hsl _ =>
          visit_congr (.edge hr hins (List.mem_append_left _ (Ins.mem_inputs hsl)))]

/-- The loop of `Fold::run` from a state of the search visits only reachable nodes. -/
theorem bfs_congr (ha : f.Acyclic T) {fuel : Nat} :
    ∀ {k : Nat} {s : Fcx}, s.Closed T f none → bfs T debug f' fuel k s = bfs T debug f fuel k s
  | 0, _, _ => rfl
  | k + 1, s, hs => by
    unfold bfs
    split
    · rfl
    · rename_i id rest hn
      have hr : f.Reach T id := hs.queued id (by simp [hn])
      rw [visit_congr hcode hr]
      split
      · rfl
      · rename_i t n hv
        have ht := (hs.pop hn).visit ha hr hv
        exact bfs_congr ha (ht.1.settle ht.2)

/-- `Fold::run` reads only the instructions the entry reaches.  A function `f'` of the
length and entry of an acyclic `f`, holding the same instruction at every id reachable in
`f`, gives the same buffers and the same new function, or the same error, whatever its
unreachable instructions are. -/
theorem Fold.run_congr_reach (ha : f.Acyclic T) (hlen : f'.code.length = f.code.length)
    (hentry : f'.entry = f.entry) (p : Intern) :
    Fold.run T debug p f' = Fold.run T debug p f := by
  have hinit : Fold.init p f' = Fold.init p f := by simp only [Fold.init, hlen, hentry]
  unfold Fold.run
  rw [hlen, hinit, bfs_congr hcode ha (Fcx.Closed.init p f), hentry]

end

/-- The live part of `Fold.run_leaves_dead_consts`' result: `v2 = KINT 5; RET v2`, after
two dead constants. -/
def Func.sampleLive : Func :=
  ⟨[Ins.KINT .I32 2, Ins.KINT .I32 3, Ins.KINT .I32 5, ⟨.op 0, .FX, 2, 0, 0⟩], 3⟩

/-- `Func.sampleLive` with the dead constants replaced by an operand cycle:
`v0 = ADD v0 v1; v1 = MOV v0`. -/
def Func.sampleDead : Func :=
  ⟨[⟨.ADD, .I32, 0, 1, 0⟩, ⟨.MOV, .I32, 0, 0, 0⟩, Ins.KINT .I32 5, ⟨.op 0, .FX, 2, 0, 0⟩], 3⟩

theorem Fold.run_congr_reach_sample :
    Fold.run OpTable.sample false ⟨[]⟩ Func.sampleDead =
      Fold.run OpTable.sample false ⟨[]⟩ Func.sampleLive := by
  have ha : Func.sampleLive.Acyclic OpTable.sample := Func.Topo.acyclic _ (by decide)
  refine Fold.run_congr_reach (fun x hx => ?_) ha rfl rfl _
  -- the return and the constant it reads are closed under edges
  have := Func.Reach.mem_of_closed _ (fun x => x = 2 ∨ x = 3) (.inr rfl)
    (fun id ins x hid hins hx => by
      rcases hid with rfl | rfl <;> simp only [Func.sampleLive, List.getElem?_cons_succ] at hins <;>
        cases hins <;> simp_all [Ins.edges, Ins.inputs, Ins.controls, Ins.get, Opcode.inputs,
          Opcode.controls, OpTable.sample]) hx
  rcases this with rfl | rfl <;> rfl

end Fhk5
