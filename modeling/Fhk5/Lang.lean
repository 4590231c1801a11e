import Mathlib.Data.List.Zip
import Fhk5.Except

/-!
# `LangState`: the emit payloads of the languages in use

`LangState` keeps one payload per language of an `EnumSet<Lang>` in a packed array.
`LangState::new` fills slot `k` with what `begin_emit` returns for the `k`-th language of
the set, in the ascending order the set iterates in; `LangState::finish` hands the slots
back to `finish_emit` in the same order.  `LangState::get_mut` finds the slot of a
language without the array: it counts the languages of the set below it, the
`count_ones` of the set masked by `(1 << lang) - 1`.

A set is its bits, `as_u64_truncated`: `Lang` has at most 64 variants and a language is its
discriminant, so every set of languages is a `BitVec 64`.  `begin_emit` and `finish_emit`
are parameters.  Each takes the compile context by `&mut`, so each returns its result with
the context it leaves, and the loops of `new` and `finish` thread it through their calls:
a type `τ` for the `Ccx` of `new`, a type `σ` for the `Ccx<Emit>` of `finish`.

*Start.*  `beginEmits` is the loop of `new`: `begin_emit` of each language of the set in
ascending order, until the first error, which `?` returns with the context that call left.
The `k`-th payload is what `begin_emit` returned in the context the first `k` calls left
(`getElem?_of_beginEmits`), and the loop fails exactly at the first failing call
(`beginEmits_eq_error_iff`, `LangState.new_error`).

*Slots.*  `below S L` lists the languages of `S` under `L`.  The languages of `S` are
`below S 64`, and `L` of `S` sits at index `(below S L).length` in it
(`getElem?_below_length`).  Masking `S` by `(1 << L) - 1` keeps exactly `below S L`
(`below_and_mask`), so `get_mut` computes that index.  `LangState.getMut_slot` puts these
together with `new`: the slot `get_mut` addresses holds the payload `begin_emit` returned
for the language, and no other language of the set has that slot.

*Finish.*  `result.and(finish_emit(l, ccx))` evaluates its argument before `and`, so a
failure does not stop the calls.  `runCalls` is the reference: `finish_emit` called on
each language of the set and its payload in turn.  `LangState.finish_calls` says that
`finish` makes exactly these calls, and returns the first error among their outcomes,
or `Ok`.
-/

namespace Fhk5

/-- The languages of `S` below `L`, ascending. -/
def below (S : BitVec 64) (L : Nat) : List Nat := (List.range L).filter fun l => S.getLsbD l

/-- The languages of a set, in the order its iterator yields them: ascending. -/
def langList (langs : BitVec 64) : List Nat := below langs 64

/-- `u64::count_ones`. -/
def countOnes (x : BitVec 64) : Nat := (List.range 64).countP fun i => x.getLsbD i

/-- `LangState`: the set of languages present and their payloads, one slot each. -/
structure LangState (α : Type) where
  /-- The languages present. -/
  present : BitVec 64
  /-- The payloads, in the order of `present`. -/
  data : List α

variable {ε α σ τ : Type}

/-- The loop of `LangState::new`: `begin_emit` of each language in turn, with the context
threaded through the calls.  The first error returns at once (`?`), with the context the
failing call left. -/
def beginEmits (beginEmit : Nat → τ → Except ε α × τ) : List Nat → τ → Except ε (List α) × τ
  | [], ccx => (.ok [], ccx)
  | L :: langs, ccx =>
    match beginEmit L ccx with
    | (.error e, ccx) => (.error e, ccx)
    | (.ok a, ccx) =>
      let rest := beginEmits beginEmit langs ccx
      ((a :: ·) <$> rest.1, rest.2)

/-- `LangState::new`: a slot for each language of the set, filled in the set's order with
what its `begin_emit` returns; the first error is returned.  An empty set is the default
state. -/
def LangState.new (beginEmit : Nat → τ → Except ε α × τ) (langs : BitVec 64) (ccx : τ) :
    Except ε (LangState α) × τ :=
  if countOnes langs = 0 then (.ok ⟨0, []⟩, ccx)
  else
    let r := beginEmits beginEmit (langList langs) ccx
    ((fun data => ⟨langs, data⟩) <$> r.1, r.2)

/-- `LangState::get_mut`: the slot of a language of the set. -/
def LangState.getMut (st : LangState α) (lang : Nat) : Except Halt Nat :=
  if st.present.getLsbD lang then .ok (countOnes (st.present &&& ((1 : BitVec 64) <<< lang - 1)))
  else .error .panic

/-- `Result::and`: the error of the first, or else the second. -/
def resultAnd (r r' : Except ε Unit) : Except ε Unit :=
  match r with
  | .ok _ => r'
  | .error e => .error e

/-- `LangState::finish`: each slot goes to `finish_emit` of its language, in the set's
order, with the emit context threaded through the calls.  The argument of
`result.and(...)` is evaluated first, so every call is made, and the first error is kept. -/
def LangState.finish (finishEmit : Nat → α → σ → Except ε Unit × σ) (st : LangState α)
    (ccx : σ) : Except ε Unit × σ :=
  (st.data.zip (langList st.present)).foldl
    (fun acc slot =>
      let r := finishEmit slot.2 slot.1 acc.2
      (resultAnd acc.1 r.1, r.2))
    (.ok (), ccx)

/-! ## Bits below a language -/

theorem below_succ (S : BitVec 64) (L : Nat) :
    below S (L + 1) = below S L ++ if S.getLsbD L then [L] else [] := by
  simp only [below, List.range_succ, List.filter_append]
  split <;> simp [*]

theorem countOnes_eq_length (x : BitVec 64) : countOnes x = (langList x).length :=
  List.countP_eq_length_filter _ _

/-- `(1 << L) - 1` has the bits below `L`. -/
theorem getLsbD_mask {L : Nat} (hL : L < 64) (i : Nat) :
    ((1 : BitVec 64) <<< L - 1).getLsbD i = decide (i < L) := by
  have h1 : 1 ≤ 2 ^ L := Nat.one_le_two_pow
  have h2 : 2 ^ L < 2 ^ 64 := Nat.pow_lt_pow_right (by decide) hL
  have h1' : (1 : BitVec 64).toNat = 1 := rfl
  have : ((1 : BitVec 64) <<< L - 1).toNat = 2 ^ L - 1 := by
    simp only [BitVec.toNat_sub, BitVec.toNat_shiftLeft, h1', Nat.shiftLeft_eq, Nat.one_mul,
      Nat.mod_eq_of_lt h2]
    omega
  rw [BitVec.getLsbD, this, Nat.testBit_two_pow_sub_one]

/-- Masking by `(1 << L) - 1` keeps the languages below `L`. -/
theorem below_and_mask (S : BitVec 64) {L : Nat} (hL : L < 64) :
    ∀ M, below (S &&& ((1 : BitVec 64) <<< L - 1)) M = below S (min L M)
  | 0 => by simp [below]
  | M + 1 => by
    rw [below_succ, below_and_mask S hL M, BitVec.getLsbD_and, getLsbD_mask hL]
    by_cases hM : M < L
    · rw [Nat.min_eq_right hM.le, Nat.min_eq_right hM, below_succ]
      simp [hM]
    · rw [Nat.min_eq_left (by omega), Nat.min_eq_left (by omega)]
      simp [hM]

/-- A language `L` of `S` sits after the languages below it. -/
theorem getElem?_below_length {S : BitVec 64} {L : Nat} (hS : S.getLsbD L) :
    ∀ M, L < M → (below S M)[(below S L).length]? = some L
  | 0, h => absurd h (Nat.not_lt_zero _)
  | M + 1, h => by
    rw [below_succ]
    rcases Nat.lt_succ_iff_lt_or_eq.mp h with h | rfl
    · rw [List.getElem?_append_left]
      · exact getElem?_below_length hS M h
      · exact (List.getElem?_eq_some_iff.mp (getElem?_below_length hS M h)).1
    · simp [hS]

/-- The slot `get_mut` computes for a language of the set is its index in the set's
order. -/
theorem getElem?_langList_countOnes {S : BitVec 64} {L : Nat} (hS : S.getLsbD L) :
    (langList S)[countOnes (S &&& ((1 : BitVec 64) <<< L - 1))]? = some L := by
  have hL : L < 64 := BitVec.lt_of_getLsbD hS
  simp only [countOnes_eq_length, langList]
  rw [below_and_mask S hL, Nat.min_eq_left hL.le]
  exact getElem?_below_length hS 64 hL

/-! ## Starting the languages -/

section
variable {beginEmit : Nat → τ → Except ε α × τ} {L : Nat} {langs : List Nat} {ccx : τ}

theorem beginEmits_cons_of_error {e : ε} (h : (beginEmit L ccx).1 = .error e) :
    beginEmits beginEmit (L :: langs) ccx = (.error e, (beginEmit L ccx).2) := by
  rcases hb : beginEmit L ccx with ⟨r, c⟩
  obtain rfl : r = .error e := by rw [hb] at h; exact h
  simp only [beginEmits, hb]

theorem beginEmits_cons_of_ok {a : α} (h : (beginEmit L ccx).1 = .ok a) :
    beginEmits beginEmit (L :: langs) ccx =
      ((a :: ·) <$> (beginEmits beginEmit langs (beginEmit L ccx).2).1,
        (beginEmits beginEmit langs (beginEmit L ccx).2).2) := by
  rcases hb : beginEmit L ccx with ⟨r, c⟩
  obtain rfl : r = .ok a := by rw [hb] at h; exact h
  simp only [beginEmits, hb]

/-- The `k`-th payload of a successful loop of `new` is what `begin_emit` returned for the
`k`-th language, in the context the calls for the languages before it left. -/
theorem getElem?_of_beginEmits : ∀ {langs : List Nat} {ccx : τ} {data : List α},
    (beginEmits beginEmit langs ccx).1 = .ok data → ∀ {k L : Nat}, langs[k]? = some L →
      ∃ a, data[k]? = some a ∧ (beginEmit L (beginEmits beginEmit (langs.take k) ccx).2).1 = .ok a
  | [], _, _, _, _, _, hk => by simp at hk
  | L' :: langs, ccx, data, h, k, L, hk => by
    cases hb : (beginEmit L' ccx).1 with
    | error e => rw [beginEmits_cons_of_error hb] at h; cases h
    | ok a =>
      rw [beginEmits_cons_of_ok hb] at h
      obtain ⟨rest, hrest, rfl⟩ := map_eq_ok.mp h
      cases k with
      | zero =>
        obtain rfl : L' = L := by simpa using hk
        exact ⟨a, List.getElem?_cons_zero, hb⟩
      | succ k =>
        rw [List.take_succ_cons, beginEmits_cons_of_ok hb]
        simpa using getElem?_of_beginEmits hrest (by simpa using hk)

end

/-! ## Slots -/

section
variable {beginEmit : Nat → τ → Except ε α × τ} {S : BitVec 64} {ccx : τ} {st : LangState α}

/-- An empty set starts no language. -/
theorem langList_eq_nil (hne : countOnes S = 0) : langList S = [] :=
  List.eq_nil_of_length_eq_zero ((countOnes_eq_length S).symm.trans hne)

/-- A non-empty `LangState::new` holds the set and the payloads of its loop. -/
theorem LangState.new_ok (hst : (LangState.new beginEmit S ccx).1 = .ok st) (hne : countOnes S ≠ 0) :
    ∃ data, (beginEmits beginEmit (langList S) ccx).1 = .ok data ∧ st = ⟨S, data⟩ := by
  unfold LangState.new at hst
  rw [if_neg hne] at hst
  obtain ⟨data, hdata, rfl⟩ := map_eq_ok.mp hst
  exact ⟨data, hdata, rfl⟩

/-- An empty `LangState::new` is the default state. -/
theorem LangState.new_empty (hst : (LangState.new beginEmit S ccx).1 = .ok st) (hne : countOnes S = 0) :
    st = ⟨0, []⟩ := by
  simp only [LangState.new, hne, if_true, Except.ok.injEq] at hst
  exact hst.symm

end

/-- Of languages `0`, `1` and `3`, those from `1` on fail to start: `new` reports `1`, and
the context counts the two calls made. -/
example : LangState.new (fun l c => (if 1 ≤ l then .error l else .ok l, c + 1) :
    Nat → Nat → Except Nat Nat × Nat) 0b1011#64 0 = (.error 1, 2) := rfl

/-- The slot `LangState::get_mut` addresses for a language `L` of the set is
`count_ones(S & ((1 << L) - 1))`, below the size of the set.  It is the slot where
`LangState::new` put what `begin_emit` returned for `L`, in the context the calls for the
languages before it left: the `k`-th language of the set's order is `L`.  No other language
of the set has that slot. -/
theorem LangState.getMut_slot (beginEmit : Nat → τ → Except ε α × τ) {S : BitVec 64} {ccx : τ}
    {st : LangState α} (hst : (LangState.new beginEmit S ccx).1 = .ok st) {L : Nat}
    (hS : S.getLsbD L) :
    ∃ k, st.getMut L = .ok k ∧ k = countOnes (S &&& ((1 : BitVec 64) <<< L - 1)) ∧
      k < countOnes S ∧ (langList S)[k]? = some L ∧
      (∃ a, st.data[k]? = some a ∧
        (beginEmit L (beginEmits beginEmit ((langList S).take k) ccx).2).1 = .ok a) ∧
      ∀ L', S.getLsbD L' → st.getMut L' = .ok k → L' = L := by
  have hk := getElem?_langList_countOnes hS
  have hne : countOnes S ≠ 0 := by
    have := (List.getElem?_eq_some_iff.mp hk).1
    rw [countOnes_eq_length]; omega
  -- `new` stored the payloads of its loop over the set's order
  obtain ⟨data, hdata, rfl⟩ := LangState.new_ok hst hne
  refine ⟨_, by simp only [LangState.getMut, hS, if_true], rfl,
    countOnes_eq_length S ▸ (List.getElem?_eq_some_iff.mp hk).1, hk,
    getElem?_of_beginEmits hdata hk, ?_⟩
  intro L' hS' h'
  simp only [LangState.getMut, hS', if_true, Except.ok.injEq] at h'
  have := getElem?_langList_countOnes hS'
  rw [h', hk] at this
  exact (Option.some.inj this).symm

/-- With a context that counts the calls, language `3` of `0`, `1` and `3` gets the payload
`begin_emit` made at the third call. -/
theorem LangState.getMut_slot_sample :
    ∃ st : LangState Nat,
      (LangState.new (fun l c => ((.ok (10 * l + c) : Except Unit Nat), c + 1)) 0b1011#64 0).1 =
        .ok st ∧ (0b1011#64).getLsbD 3 ∧ ∃ k, st.getMut 3 = .ok k ∧ st.data[k]? = some 32 := by
  obtain ⟨st, hst⟩ : ∃ st, (LangState.new (fun l c => ((.ok (10 * l + c) : Except Unit Nat), c + 1))
      0b1011#64 0).1 = .ok st := ⟨_, rfl⟩
  have hS : (0b1011#64).getLsbD 3 := by decide
  obtain ⟨k, hk, rfl, -, -, ⟨a, ha, hb⟩, -⟩ := LangState.getMut_slot _ hst hS
  cases hb
  exact ⟨st, hst, hS, _, hk, ha⟩

/-! ## What `finish` calls -/

/-- `finish_emit` called on each language and payload in turn, threading the context: the
outcome of each call, and the final context. -/
def runCalls (finishEmit : Nat → α → σ → Except ε Unit × σ) :
    List (Nat × α) → σ → List (Except ε Unit) × σ
  | [], ccx => ([], ccx)
  | (L, a) :: rest, ccx =>
    let r := finishEmit L a ccx
    let rs := runCalls finishEmit rest r.2
    (r.1 :: rs.1, rs.2)

/-- The first error of a list of outcomes, or `Ok`. -/
def firstError : List (Except ε Unit) → Except ε Unit
  | [] => .ok ()
  | .ok _ :: rs => firstError rs
  | .error e :: _ => .error e

theorem firstError_eq_ok_iff : ∀ {rs : List (Except ε Unit)},
    firstError rs = .ok () ↔ ∀ r ∈ rs, r = .ok ()
  | [] => by simp [firstError]
  | .ok _ :: rs => by simp [firstError, firstError_eq_ok_iff]
  | .error e :: rs => by simp [firstError]

theorem firstError_of_getElem? : ∀ {rs : List (Except ε Unit)} {i : Nat} {e : ε},
    rs[i]? = some (.error e) → (∀ r ∈ rs.take i, r = .ok ()) → firstError rs = .error e
  | [], _, _, h, _ => by simp at h
  | r :: rs, 0, e, h, _ => by
    obtain rfl : r = .error e := by simpa using h
    rfl
  | r :: rs, i + 1, e, h, hok => by
    obtain rfl : r = .ok () := hok r (by simp)
    show firstError rs = .error e
    exact firstError_of_getElem? (i := i) (by simpa using h) fun r' hr' => hok r' (by simp [hr'])

/-- The loop of `finish` from an accumulated result: that result, and then the first error
of the calls it makes. -/
theorem foldl_finish (finishEmit : Nat → α → σ → Except ε Unit × σ) :
    ∀ (slots : List (α × Nat)) (r : Except ε Unit) (ccx : σ),
      slots.foldl (fun acc slot =>
          let r := finishEmit slot.2 slot.1 acc.2
          (resultAnd acc.1 r.1, r.2)) (r, ccx) =
        (resultAnd r (firstError (runCalls finishEmit (slots.map Prod.swap) ccx).1),
          (runCalls finishEmit (slots.map Prod.swap) ccx).2)
  | [], r, ccx => by cases r <;> rfl
  | (a, L) :: slots, r, ccx => by
    rw [List.foldl_cons, foldl_finish finishEmit slots]
    simp only [List.map_cons, Prod.swap_prod_mk, runCalls]
    generalize finishEmit L a ccx = x
    obtain ⟨r₁, c₁⟩ := x
    cases r <;> cases r₁ <;> rfl

theorem mem_langList {S : BitVec 64} {L : Nat} : L ∈ langList S ↔ S.getLsbD L := by
  simp only [langList, below, List.mem_filter, List.mem_range, and_iff_right_iff_imp]
  exact BitVec.lt_of_getLsbD

/-- `LangState::finish` calls `finish_emit` once for each language of the set, in ascending
order, on the payload `LangState::new` stored for it, whatever the calls return.  It returns
`Ok` exactly when every call does, and otherwise the error of the first failing call. -/
theorem LangState.finish_calls (beginEmit : Nat → τ → Except ε α × τ)
    (finishEmit : Nat → α → σ → Except ε Unit × σ) {S : BitVec 64} {ccx₀ : τ} {st : LangState α}
    (hst : (LangState.new beginEmit S ccx₀).1 = .ok st) (ccx : σ) :
    (langList S).Pairwise (· < ·) ∧ (∀ L, L ∈ langList S ↔ S.getLsbD L) ∧
      ∃ data, (beginEmits beginEmit (langList S) ccx₀).1 = .ok data ∧ st.data = data ∧
        let calls := runCalls finishEmit ((langList S).zip data) ccx
        (st.finish finishEmit ccx).2 = calls.2 ∧
        ((st.finish finishEmit ccx).1 = .ok () ↔ ∀ r ∈ calls.1, r = .ok ()) ∧
        ∀ (i : Nat) (e : ε), calls.1[i]? = some (.error e) → (∀ r ∈ calls.1.take i, r = .ok ()) →
          (st.finish finishEmit ccx).1 = .error e := by
  -- `new` stored the payloads of its loop over the set's order
  obtain ⟨data, hdata, hslots⟩ : ∃ data, (beginEmits beginEmit (langList S) ccx₀).1 = .ok data ∧
      st.data = data ∧ st.data.zip (langList st.present) = data.zip (langList S) := by
    by_cases hne : countOnes S = 0
    · obtain rfl := LangState.new_empty hst hne
      exact ⟨[], by rw [langList_eq_nil hne]; rfl, rfl, by simp⟩
    · obtain ⟨data, hdata, rfl⟩ := LangState.new_ok hst hne
      exact ⟨data, hdata, rfl, rfl⟩
  have hfin : st.finish finishEmit ccx =
      (firstError (runCalls finishEmit ((langList S).zip data) ccx).1,
        (runCalls finishEmit ((langList S).zip data) ccx).2) := by
    rw [LangState.finish, hslots.2, foldl_finish, List.zip_swap]
    rfl
  refine ⟨(List.pairwise_lt_range 64).filter _, fun L => mem_langList, data, hdata, hslots.1, ?_⟩
  rw [hfin]
  exact ⟨rfl, firstError_eq_ok_iff, fun i e => firstError_of_getElem?⟩

/-- Of the languages `0`, `1` and `3`, the finish of `1` fails: `finish` returns its error,
and `3` is still finished. -/
theorem LangState.finish_calls_sample :
    ∃ st : LangState Nat,
      (LangState.new (fun l c => ((.ok (10 * l) : Except Nat Nat), c)) 0b1011#64 ()).1 = .ok st ∧
      st.finish (fun L a log => (if L = 1 then .error a else .ok (), log ++ [L])) [] =
        (.error 10, [0, 1, 3]) := by
  obtain ⟨st, hst⟩ : ∃ st, (LangState.new (fun l c => ((.ok (10 * l) : Except Nat Nat), c))
      0b1011#64 ()).1 = .ok st := ⟨_, rfl⟩
  obtain ⟨-, -, data, hdata, -, hctx, -, herr⟩ := LangState.finish_calls _
    (fun L a (log : List Nat) => (if L = 1 then .error a else .ok (), log ++ [L])) hst []
  obtain rfl : data = [0, 10, 30] := Except.ok.inj (hdata.symm.trans rfl)
  refine ⟨st, hst, Prod.ext (herr 1 10 rfl fun r hr => ?_) (hctx.trans rfl)⟩
  -- the call of language `0` returned `Ok`
  have h0 : (runCalls (fun L a (log : List Nat) => (if L = 1 then .error a else .ok (), log ++ [L]))
      ((langList 0b1011#64).zip [0, 10, 30]) []).1.take 1 = [.ok ()] := rfl
  rw [h0, List.mem_singleton] at hr
  exact hr

end Fhk5
