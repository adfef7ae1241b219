import GenieAcs.Lib.InsMap

/-!
# A cache of two generations

A key that is looked up goes to the recent generation. From time to time the
recent generation becomes the old one and the old one is dropped, so that a key
stays just as long as it is looked up in every other generation: it is computed
anew if it was not looked up since the time before last (`isSome_held`).

What is looked up may be computed differently every time; a look-up returns what
was computed last (`held_eq`).
-/

namespace GenieAcs

/-- The keys that were looked up in this generation and in the one before. -/
structure Generations (K V : Type*) where
  recent : InsMap K V
  old : InsMap K V

namespace Generations

variable {K V : Type*}

/-- A look-up, with what the key would be computed to now; a new generation; a key
that is taken out. -/
inductive Event (K V : Type*) where
  | lookup (k : K) (v : V)
  | rotate
  | evict (k : K)

/-- `f` of the keys. -/
def Event.mapKey {K' : Type*} (f : K → K') : Event K V → Event K' V
  | lookup k v => lookup (f k) v
  | rotate => rotate
  | evict k => evict (f k)

variable [DecidableEq K]

def empty : Generations K V := ⟨.empty, .empty⟩

/-- What is found for a key. -/
def held (s : Generations K V) (k : K) : Option V := (s.recent.get? k).or (s.old.get? k)

def lookup (s : Generations K V) (k : K) (v : V) : Generations K V × V :=
  match s.recent.get? k with
  | some r => (s, r)
  | none =>
      match s.old.get? k with
      | some r => ({ s with recent := s.recent.set k r }, r)
      | none => ({ s with recent := s.recent.set k v }, v)

/-- The cache after an event. -/
def step (s : Generations K V) : Event K V → Generations K V
  | .lookup k v => (s.lookup k v).1
  | .rotate => ⟨.empty, s.recent⟩
  | .evict k => ⟨s.recent.erase k, s.old.erase k⟩

/-- The cache after some events, the last one first. -/
def after : List (Event K V) → Generations K V
  | [] => empty
  | e :: history => (after history).step e

/-! ## What a history tells -/

/-- The generations that began since the key was looked up, if it was and was not
taken out. -/
def age (k : K) : List (Event K V) → Option ℕ
  | [] => none
  | .lookup k' _ :: history => if k' = k then some 0 else age k history
  | .evict k' :: history => if k' = k then none else age k history
  | .rotate :: history => (age k history).map (· + 1)

theorem age_lookup (k k' : K) (v : V) (history : List (Event K V)) :
    age k (.lookup k' v :: history) = if k' = k then some 0 else age k history := rfl

theorem age_rotate (k : K) (history : List (Event K V)) :
    age k (.rotate :: history) = (age k history).map (· + 1) := rfl

theorem age_evict (k k' : K) (history : List (Event K V)) :
    age k (.evict k' :: history) = if k' = k then none else age k history := rfl

/-- The key was looked up in this generation or in the one before. -/
def Fresh (k : K) (history : List (Event K V)) : Prop := ∃ n ∈ age k history, n ≤ 1

instance (k : K) (history : List (Event K V)) : Decidable (Fresh k history) :=
  inferInstanceAs (Decidable (∃ n ∈ age k history, n ≤ 1))

/-- What the key was computed to last. -/
def computed (k : K) : List (Event K V) → Option V
  | [] => none
  | .lookup k' v :: history =>
      if k' = k ∧ ¬ Fresh k history then some v else computed k history
  | .evict _ :: history => computed k history
  | .rotate :: history => computed k history

theorem computed_lookup (k k' : K) (v : V) (history : List (Event K V)) :
    computed k (.lookup k' v :: history)
      = if k' = k ∧ ¬ Fresh k history then some v else computed k history := rfl

theorem computed_evict (k k' : K) (history : List (Event K V)) :
    computed k (.evict k' :: history) = computed k history := rfl

theorem computed_rotate (k : K) (history : List (Event K V)) :
    computed k (.rotate :: history) = computed k history := rfl

/-! ## What is found -/

theorem lookup_snd (s : Generations K V) (k : K) (v : V) :
    (s.lookup k v).2 = (s.held k).getD v := by
  rw [lookup, held]
  cases s.recent.get? k with
  | some r => rfl
  | none => cases s.old.get? k <;> rfl

theorem recent_lookup (s : Generations K V) (k k' : K) (v : V) :
    (s.lookup k v).1.recent.get? k'
      = if k' = k then some ((s.held k).getD v) else s.recent.get? k' := by
  rw [lookup, held]
  cases hrecent : s.recent.get? k with
  | some r =>
      by_cases hk : k' = k
      · rw [if_pos hk, hk]
        exact hrecent
      · rw [if_neg hk]
  | none => cases s.old.get? k <;> exact InsMap.get?_set _ _ _ _

theorem old_lookup (s : Generations K V) (k : K) (v : V) : (s.lookup k v).1.old = s.old := by
  rw [lookup]
  cases s.recent.get? k with
  | some r => rfl
  | none => cases s.old.get? k <;> rfl

/-- The generations hold what was looked up in them. -/
structure Agrees (s : Generations K V) (history : List (Event K V)) : Prop where
  recent : ∀ k, (s.recent.get? k).isSome = true ↔ age k history = some 0
  held : ∀ k, s.held k = if Fresh k history then computed k history else none

theorem Agrees.value {s : Generations K V} {history : List (Event K V)} (h : Agrees s history)
    {k : K} {r : V} (hr : s.recent.get? k = some r) :
    computed k history = some r ∧ Fresh k history := by
  have hage := (h.recent k).mp (by rw [hr]; rfl)
  have hfresh : Fresh k history := ⟨0, hage, Nat.zero_le 1⟩
  have hheld := h.held k
  rw [if_pos hfresh, Generations.held, hr, Option.some_or] at hheld
  exact ⟨hheld.symm, hfresh⟩

theorem agrees_empty : Agrees (empty : Generations K V) [] where
  recent k := by
    show (InsMap.empty.get? k).isSome = true ↔ (none : Option ℕ) = some 0
    rw [InsMap.get?_empty]
    simp
  held k := by
    show (InsMap.empty.get? k).or (InsMap.empty.get? k) = if _ then (none : Option V) else none
    rw [InsMap.get?_empty, ite_self]
    rfl

theorem fresh_lookup {k k' : K} {v : V} {history : List (Event K V)} :
    Fresh k (.lookup k' v :: history) ↔ k' = k ∨ Fresh k history := by
  rw [Fresh, age_lookup]
  split_ifs with h
  · exact iff_of_true ⟨0, rfl, Nat.zero_le 1⟩ (Or.inl h)
  · exact (or_iff_right h).symm

theorem fresh_rotate {k : K} {history : List (Event K V)} :
    Fresh k (.rotate :: history) ↔ age k history = some 0 := by
  rw [Fresh, age_rotate]
  cases age k history with
  | none => simp
  | some n => simp

theorem fresh_evict {k k' : K} {history : List (Event K V)} :
    Fresh k (.evict k' :: history) ↔ k' ≠ k ∧ Fresh k history := by
  rw [Fresh, age_evict]
  split_ifs with h
  · simp [h]
  · exact (and_iff_right h).symm

/-- A key that was looked up was computed before. -/
theorem isSome_computed {k : K} {history : List (Event K V)} (h : Fresh k history) :
    (computed k history).isSome = true := by
  induction history with
  | nil =>
      obtain ⟨n, hn, -⟩ := h
      cases hn
  | cons e history ih =>
      cases e with
      | lookup k' v =>
          rw [computed_lookup]
          split_ifs with hk
          · rfl
          · by_cases heq : k' = k
            · exact ih (not_not.mp (not_and.mp hk heq))
            · exact ih ((fresh_lookup.mp h).resolve_left heq)
      | rotate => exact ih ⟨0, fresh_rotate.mp h, Nat.zero_le 1⟩
      | evict k' => exact ih (fresh_evict.mp h).2

theorem Agrees.lookup {s : Generations K V} {history : List (Event K V)} (h : Agrees s history)
    (k : K) (v : V) : Agrees (s.step (.lookup k v)) (.lookup k v :: history) where
  recent k' := by
    rw [Generations.step, recent_lookup, age_lookup]
    by_cases hk : k' = k
    · simp [hk]
    · rw [if_neg hk, if_neg (Ne.symm hk)]
      exact h.recent k'
  held k' := by
    rw [Generations.step, Generations.held, recent_lookup, old_lookup, computed_lookup]
    by_cases hk : k' = k
    · subst hk
      rw [if_pos rfl, Option.some_or, if_pos (fresh_lookup.mpr (Or.inl rfl)), h.held]
      by_cases hfresh : Fresh k' history
      · rw [if_pos hfresh, if_neg fun hnot => hnot.2 hfresh]
        obtain ⟨r, hr⟩ := Option.isSome_iff_exists.mp (isSome_computed hfresh)
        rw [hr, Option.getD_some]
      · rw [if_neg hfresh, if_pos ⟨rfl, hfresh⟩, Option.getD_none]
    · have hnot : ¬ (k = k' ∧ ¬ Fresh k' history) := fun hnot => hk hnot.1.symm
      have hsame : Fresh k' (.lookup k v :: history) ↔ Fresh k' history :=
        fresh_lookup.trans (or_iff_right (Ne.symm hk))
      simp only [if_neg hk, if_neg hnot, hsame]
      exact h.held k'

theorem Agrees.rotate {s : Generations K V} {history : List (Event K V)} (h : Agrees s history) :
    Agrees (s.step .rotate) (.rotate :: history) where
  recent k := by
    rw [age_rotate]
    cases age k history <;> simp [Generations.step, InsMap.get?_empty]
  held k := by
    show (none : Option V).or (s.recent.get? k) = if _ then computed k history else none
    rw [Option.none_or]
    cases hrecent : s.recent.get? k with
    | some r =>
        have hage := (h.recent k).mp (by rw [hrecent]; rfl)
        rw [if_pos (fresh_rotate.mpr hage), (h.value hrecent).1]
    | none =>
        rw [if_neg fun hfresh => ?_]
        have hsome := (h.recent k).mpr (fresh_rotate.mp hfresh)
        rw [hrecent] at hsome
        cases hsome

theorem Agrees.evict {s : Generations K V} {history : List (Event K V)} (h : Agrees s history)
    (k : K) : Agrees (s.step (.evict k)) (.evict k :: history) where
  recent k' := by
    rw [Generations.step, InsMap.get?_erase, age_evict]
    by_cases hk : k' = k
    · simp [hk]
    · rw [if_neg hk, if_neg (Ne.symm hk)]
      exact h.recent k'
  held k' := by
    rw [Generations.step, Generations.held, InsMap.get?_erase, InsMap.get?_erase, computed_evict]
    by_cases hk : k' = k
    · rw [if_pos hk, if_pos hk, if_neg fun hfresh => (fresh_evict.mp hfresh).1 hk.symm]
      rfl
    · have hsame : Fresh k' (.evict k :: history) ↔ Fresh k' history :=
        fresh_evict.trans (and_iff_right (Ne.symm hk))
      simp only [if_neg hk, hsame]
      exact h.held k'

/-- Whatever the events were. -/
theorem agrees_after (history : List (Event K V)) : Agrees (after history) history := by
  induction history with
  | nil => exact agrees_empty
  | cons e history ih =>
      cases e with
      | lookup k v => exact ih.lookup k v
      | rotate => exact ih.rotate
      | evict k => exact ih.evict k

/-- What a look-up returns. -/
theorem returned_eq (history : List (Event K V)) (k : K) (v : V) :
    ((after history).lookup k v).2
      = if Fresh k history then (computed k history).getD v else v := by
  rw [lookup_snd, (agrees_after history).held]
  split_ifs <;> rfl

/-- A key that is always computed to the same is found with it. -/
theorem returned_pure {history : List (Event K V)} {k : K} {v : V}
    (hpure : ∀ v', .lookup k v' ∈ history → v' = v) : ((after history).lookup k v).2 = v := by
  have hcomputed : ∀ r ∈ computed k history, r = v := by
    induction history with
    | nil =>
        intro r hr
        cases hr
    | cons e history ih =>
        have hih := ih fun v' h => hpure v' (List.mem_cons_of_mem _ h)
        cases e with
        | lookup k' v' =>
            rw [computed_lookup]
            split_ifs with hk
            · intro r hr
              obtain rfl := Option.some.inj hr
              exact hpure v' (hk.1 ▸ List.mem_cons_self)
            · exact hih
        | rotate => exact hih
        | evict k' => exact hih
  rw [returned_eq]
  split_ifs with hfresh
  · obtain ⟨r, hr⟩ := Option.isSome_iff_exists.mp (isSome_computed hfresh)
    rw [hr, Option.getD_some]
    exact hcomputed r hr
  · rfl

/-! ## Keys made of keys -/

section

variable {K' : Type*} [DecidableEq K'] {f : K → K'}

theorem age_map (hf : Function.Injective f) (k : K) (history : List (Event K V)) :
    age (f k) (history.map (Event.mapKey f)) = age k history := by
  induction history with
  | nil => rfl
  | cons e history ih =>
      rw [List.map_cons]
      cases e with
      | lookup k' v =>
          simp only [Event.mapKey, age_lookup, hf.eq_iff, ih]
      | rotate => simp only [Event.mapKey, age_rotate, ih]
      | evict k' => simp only [Event.mapKey, age_evict, hf.eq_iff, ih]

theorem fresh_map (hf : Function.Injective f) (k : K) (history : List (Event K V)) :
    Fresh (f k) (history.map (Event.mapKey f)) ↔ Fresh k history := by
  rw [Fresh, age_map hf]
  rfl

theorem computed_map (hf : Function.Injective f) (k : K) (history : List (Event K V)) :
    computed (f k) (history.map (Event.mapKey f)) = computed k history := by
  induction history with
  | nil => rfl
  | cons e history ih =>
      rw [List.map_cons]
      cases e with
      | lookup k' v =>
          simp only [Event.mapKey, computed_lookup, hf.eq_iff, fresh_map hf, ih]
      | rotate => simp only [Event.mapKey, computed_rotate, ih]
      | evict k' => simp only [Event.mapKey, computed_evict, ih]

omit [DecidableEq K] [DecidableEq K'] in
theorem lookup_mem_map (hf : Function.Injective f) {k : K} {v : V} {history : List (Event K V)}
    (h : .lookup (f k) v ∈ history.map (Event.mapKey f)) : .lookup k v ∈ history := by
  obtain ⟨e, he, heq⟩ := List.mem_map.mp h
  cases e with
  | lookup k' v' =>
      obtain ⟨hk, rfl⟩ := Event.lookup.inj heq
      exact hf hk ▸ he
  | rotate => cases heq
  | evict k' => cases heq

end

end Generations

end GenieAcs
