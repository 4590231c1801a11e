import Mathlib.Data.List.Basic

/-!
# The `Except` monad

The model runs fallible Rust code in `Except`: `?` is `bind`, and a panic is the error
`Halt.panic`.  The simp lemmas here run `bind`, `<$>`, `pure` and `throw` on a known
result.  The lemmas about `List.mapM` and `List.foldlM` are the facts the model uses about a
loop that stops at the first error: it succeeds when every call does, what it returns are
the results of the calls in order, and an error it returns is the error of some call.
-/

namespace Fhk5

/-- How a run of the model stops without a result. -/
inductive Halt where
  /-- A Rust panic: `unreachable!()`, an arithmetic fault, a failed `debug_assert!`, an
  index out of bounds or an `unwrap` of `None`. -/
  | panic
  /-- The model's fuel ran out. -/
  | fuel
deriving DecidableEq, Repr

variable {ε α β : Type}

@[simp] theorem ok_bind (a : α) (f : α → Except ε β) : (Except.ok a >>= f) = f a := rfl

@[simp] theorem error_bind (e : ε) (f : α → Except ε β) :
    (Except.error e >>= f) = Except.error e := rfl

@[simp] theorem map_ok (g : α → β) (a : α) :
    (g <$> (Except.ok a : Except ε α)) = Except.ok (g a) := rfl

@[simp] theorem map_error (g : α → β) (e : ε) :
    (g <$> (Except.error e : Except ε α)) = Except.error e := rfl

@[simp] theorem pure_eq_ok (a : α) : (pure a : Except ε α) = Except.ok a := rfl

@[simp] theorem throw_eq_error (e : ε) : (throw e : Except ε α) = Except.error e := rfl

theorem bind_eq_ok {x : Except ε α} {f : α → Except ε β} {b : β} :
    x >>= f = .ok b ↔ ∃ a, x = .ok a ∧ f a = .ok b := by
  cases x <;> simp

theorem map_eq_ok {x : Except ε α} {g : α → β} {b : β} :
    g <$> x = .ok b ↔ ∃ a, x = .ok a ∧ g a = b := by
  cases x <;> simp

/-- `mapM` of a function that succeeds on every element succeeds, with results related
elementwise to the elements. -/
theorem mapM_ok {g : α → Except ε β} {R : α → β → Prop} :
    ∀ {l : List α}, (∀ a ∈ l, ∃ b, g a = .ok b ∧ R a b) →
      ∃ l' : List β, l.mapM g = .ok l' ∧ l'.length = l.length ∧
        ∀ (k : Nat) (b : β), l'[k]? = some b → ∃ a, l[k]? = some a ∧ R a b
  | [], _ => ⟨[], rfl, rfl, by simp⟩
  | a :: l, h => by
    obtain ⟨b, hb, hr⟩ := h a (List.mem_cons_self _ _)
    obtain ⟨l', hl', hlen, hrel⟩ := mapM_ok fun a' h' => h a' (List.mem_cons_of_mem _ h')
    refine ⟨b :: l', by rw [List.mapM_cons, hb, hl']; rfl, by simp [hlen], fun k b' hk => ?_⟩
    cases k with
    | zero =>
      obtain rfl : b = b' := by simpa using hk
      exact ⟨a, by simp, hr⟩
    | succ k => simpa using hrel k b' (by simpa using hk)

/-- An error of `mapM` is an error of the function. -/
theorem mapM_error {g : α → Except ε β} {P : ε → Prop} (hg : ∀ a e, g a = .error e → P e) :
    ∀ {l : List α} {e : ε}, l.mapM g = .error e → P e
  | [], _, h => by cases h
  | a :: l, e, h => by
    simp only [List.mapM_cons, bind, Except.bind, pure, Except.pure] at h
    split at h
    · cases h; exact hg _ _ ‹_›
    · split at h
      · cases h; exact mapM_error hg ‹_›
      · cases h

/-- A property of the accumulator kept by every step of `foldlM` holds at its end. -/
theorem foldlM_induct {f : β → α → Except ε β} (P : β → Prop)
    (hf : ∀ b a b', P b → f b a = .ok b' → P b') :
    ∀ {l : List α} {b b' : β}, P b → l.foldlM f b = .ok b' → P b'
  | [], _, _, hb, h => by cases h; exact hb
  | a :: l, b, b', hb, h => by
    simp only [List.foldlM_cons, bind, Except.bind] at h
    split at h
    · cases h
    · exact foldlM_induct P hf (hf _ _ _ hb ‹_›) h

/-- An error of `foldlM` is an error of a step from an accumulator with a property every
step keeps. -/
theorem foldlM_error {f : β → α → Except ε β} (P : β → Prop) {Q : ε → Prop}
    (hf : ∀ b a b', P b → f b a = .ok b' → P b') (he : ∀ b a e, P b → f b a = .error e → Q e) :
    ∀ {l : List α} {b : β} {e : ε}, P b → l.foldlM f b = .error e → Q e
  | [], _, _, _, h => by cases h
  | a :: l, b, e, hb, h => by
    simp only [List.foldlM_cons, bind, Except.bind] at h
    split at h
    · cases h; exact he _ _ _ hb ‹_›
    · exact foldlM_error P hf he (hf _ _ _ hb ‹_›) h

/-- `foldlM` succeeds when every step from an accumulator with the property does, and
keeps it. -/
theorem foldlM_ok {f : β → α → Except ε β} (P : β → Prop) {l : List α}
    (hf : ∀ b, ∀ a ∈ l, P b → ∃ b', f b a = .ok b' ∧ P b') {b : β} (hb : P b) :
    ∃ b', l.foldlM f b = .ok b' ∧ P b' := by
  induction l generalizing b with
  | nil => exact ⟨b, rfl, hb⟩
  | cons a l ih =>
    obtain ⟨b₁, h₁, hb₁⟩ := hf b a (List.mem_cons_self _ _) hb
    obtain ⟨b', h', hb'⟩ := ih (fun b a ha => hf b a (List.mem_cons_of_mem _ ha)) hb₁
    exact ⟨b', by simp only [List.foldlM_cons, h₁, ok_bind, h'], hb'⟩

/-- A `foldlM` whose every step's result is also a result of another step has its result
with that other step too. -/
theorem foldlM_of_imp {f g : β → α → Except ε β} (h : ∀ {b a b'}, f b a = .ok b' → g b a = .ok b') :
    ∀ {l : List α} {b b' : β}, l.foldlM f b = .ok b' → l.foldlM g b = .ok b'
  | [], _, _, hb => hb
  | a :: l, b, b', hb => by
    simp only [List.foldlM_cons] at hb ⊢
    obtain ⟨b₁, h₁, h₂⟩ := bind_eq_ok.mp hb
    rw [h h₁]
    exact foldlM_of_imp h h₂

end Fhk5
