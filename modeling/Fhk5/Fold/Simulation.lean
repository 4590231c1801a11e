import Fhk5.Fold.Meaning

/-!
# What the fold keeps of a function: a simulation

`Fold::run` gives a function new code with new ids, so what it keeps is stated along a
relation between the ids of the old function and of the new one.  A relation `R` is a
simulation of `f` by `g` (`Func.Simulation`) when it relates the entries, a value an id of
`f` has is a value of every id of `g` related to it, and a control instruction of `f` sits at
every related id of `g` with its opcode, type and immediates, each edge replaced by a related
id.  So from the entry on, following control successors, `g` meets the control instructions
`f` meets, and their inputs have the values they have in `f`.  The new code may have values
where the old has none (`x * 0` folds to `0` whatever `x` is).

`Fold::run` is simulated along `old_new` (`Fold.run_simulation`): every id the run records
is reachable, and so is every edge of a reachable control instruction.  Simulations compose
(`Func.Simulation.comp`), and the identity is one while the pool only grows
(`Func.Simulation.refl`).  So the driver, which runs `Fold::run` on one function after
another and repeats, keeps the meaning of every function (`Optimize.run_foldOnly_simulates`).
An id of `f` need not stay related through a second run: an operand of an instruction the
first run folded away gets a new id that the second run does not reach.
-/

namespace Fhk5

variable {T : OpTable}

/-! ## Renaming the edge slots of an instruction -/

namespace Ins

/-- Mapping the slots through the identity changes nothing. -/
theorem mapSlots_id : ∀ (ss : List Slot) (ins : Ins), ins.mapSlots id ss = ins
  | [], _ => rfl
  | sl :: ss, ins => by
    have : ins.set sl (id (ins.get sl)) = ins := by cases ins; cases sl <;> rfl
    rw [mapSlots, this, mapSlots_id ss]

/-- Mapping distinct slots twice maps them through the composite. -/
theorem mapSlots_mapSlots (g g' : Nat → Nat) {ss : List Slot} (hss : ss.Nodup) (ins : Ins) :
    (ins.mapSlots g ss).mapSlots g' ss = ins.mapSlots (g' ∘ g) ss :=
  ext_get (by simp) (by simp) fun sl => by
    simp only [get_mapSlots _ hss]
    split <;> rfl

/-- Mapping the edge slots maps the edges. -/
theorem edges_mapSlots (g : Nat → Nat) (ins : Ins) :
    (ins.mapSlots g (ins.opcode.inputs T ++ ins.opcode.controls T)).edges T = (ins.edges T).map g := by
  have hnd := ins.opcode.nodup_inputs_append_controls T
  simp only [edges, inputs, controls, opcode_mapSlots, List.map_append, List.map_map]
  congr 1 <;> refine List.map_congr_left fun sl h => ?_ <;> simp [get_mapSlots g hnd, h]

end Ins

/-! ## Simulations -/

/-- `R` relates the ids of `f` to those of `g` so that `g` keeps the meaning of `f`: the
entries are related, a value of an id of `f` is a value of each id of `g` related to it, and
a control instruction of `f` is found at each related id of `g` with its opcode, type and
immediates, every edge replaced by a related id.  Constants of `f` are read from the pool
`p`, those of `g` from `p'`. -/
structure Func.Simulation (T : OpTable) (F : Ins → List (BitVec 64) → BitVec 64)
    (p p' : Intern) (f g : Func) (R : Nat → Nat → Prop) : Prop where
  /-- The entries are related. -/
  entry : R f.entry g.entry
  /-- Related ids have the values of the old one. -/
  value : ∀ {x y : Nat}, R x y → ∀ v, Value T F Opcode.isLiteral p f.code x v →
    Value T F Opcode.isLiteral p' g.code y v
  /-- Related ids hold the old control instruction with its edges related. -/
  control : ∀ {x y : Nat} {ins : Ins}, R x y → f.code[x]? = some ins → ins.opcode.isControl T →
    ∃ σ : Nat → Nat,
      g.code[y]? = some (ins.mapSlots σ (ins.opcode.inputs T ++ ins.opcode.controls T)) ∧
      ∀ z ∈ ins.edges T, R z (σ z)

namespace Func.Simulation

variable {F : Ins → List (BitVec 64) → BitVec 64} {p₁ p₂ p₃ : Intern} {f g k : Func}
  {R₁ R₂ : Nat → Nat → Prop}

/-- A function simulates itself along the identity over a larger pool. -/
theorem refl (hp : p₁.Le p₂) (f : Func) : Func.Simulation T F p₁ p₂ f f Eq where
  entry := rfl
  value h v hv := h ▸ hv.mono hp (List.prefix_refl _)
  control h hins _ := ⟨id, by rw [← h, Ins.mapSlots_id, hins], fun _ _ => rfl⟩

/-- Simulations compose along the composite relation. -/
theorem comp (h₁ : Func.Simulation T F p₁ p₂ f g R₁) (h₂ : Func.Simulation T F p₂ p₃ g k R₂) :
    Func.Simulation T F p₁ p₃ f k fun x z => ∃ y, R₁ x y ∧ R₂ y z where
  entry := ⟨_, h₁.entry, h₂.entry⟩
  value := fun ⟨_, r₁, r₂⟩ v hv => h₂.value r₂ v (h₁.value r₁ v hv)
  control := fun ⟨_, r₁, r₂⟩ hins hc => by
    obtain ⟨σ₁, hy, hσ₁⟩ := h₁.control r₁ hins hc
    obtain ⟨σ₂, hz, hσ₂⟩ := h₂.control r₂ hy (by simpa using hc)
    refine ⟨σ₂ ∘ σ₁, ?_, fun z hz' => ⟨σ₁ z, hσ₁ z hz', hσ₂ _ ?_⟩⟩
    · rw [hz, Ins.opcode_mapSlots,
        Ins.mapSlots_mapSlots _ _ (Opcode.nodup_inputs_append_controls T _)]
    · rw [Ins.edges_mapSlots]
      exact List.mem_map_of_mem σ₁ hz'

end Func.Simulation

/-! ## `Fold::run` -/

/-- `Fold::run` on an acyclic function whose arithmetic is not float-typed is simulated along
`old_new`, over the pool it grows. -/
theorem Fold.run_simulation (F : Ins → List (BitVec 64) → BitVec 64) {debug : Bool}
    {p : Intern} {f : Func} {s : Fcx} {g : Func} (ha : f.Acyclic T) (hint : IntArith f.code)
    (h : Fold.run T debug p f = .ok (s, g)) :
    Func.Simulation T F p s.intern f g fun x y => s.oldNew[x]? = some (some y) := by
  obtain ⟨-, hreach, hlen, hrel, hentry⟩ := Fold.run_spec ha h
  refine ⟨hentry, fun hx v hv => Value.of_fixed hlen hrel ((Fold.run_sound ha hint h).value hx v hv),
    fun {x _ ins} hx hins hc => ⟨s.newId, Fold.run_getElem?_control ha hint h hx hins hc,
      fun z hz => ?_⟩⟩
  -- an edge of a reachable instruction is reachable, so the run recorded it
  obtain ⟨m, hm⟩ := (hreach z).mpr (((hreach x).mp ⟨_, hx⟩).edge hins hz)
  rw [Fcx.newId_of_getElem? hm]
  exact hm

end Fhk5
