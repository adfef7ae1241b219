import GenieAcs.Indeterminates
import GenieAcs.Lib.Results

/-!
# Polynomials and their values

`simplifyTerms`, `add`, `subtract`, `multiply` and the division by a single
term compute what they say, and leave different products in order.
-/

namespace GenieAcs

variable {J : Js}

/-! ## Terms -/

theorem findGcd_dvd (a b : ℤ) : findGcd a b ∣ a ∧ findGcd a b ∣ b := by
  induction a, b using findGcd.induct with
  | case1 a =>
      rw [findGcd, if_pos rfl]
      exact ⟨dvd_refl a, dvd_zero a⟩
  | case2 a b hb ih =>
      rw [findGcd, if_neg hb]
      refine ⟨?_, ih.1⟩
      have hsum : findGcd b (a.tmod b) ∣ b * a.tdiv b + a.tmod b :=
        dvd_add (ih.1.mul_right _) ih.2
      rwa [Int.mul_tdiv_add_tmod] at hsum

namespace Term

variable {ρ : Expr → ℚ}

def value (ρ : Expr → ℚ) (t : Term) : ℚ :=
  t.coefficientNumerator / t.coefficientDenominator * t.indeterminates.value ρ

structure Proper (J : Js) (ρ : Expr → ℚ) (t : Term) : Prop where
  indeterminates : t.indeterminates.Proper J ρ
  denominator : t.coefficientDenominator ≠ 0

def rank (J : Js) (t : Term) : ℤ ×ₗ List (ℤ ×ₗ ℤ ×ₗ JsString) := t.indeterminates.rank J

/-- The keys are in order, and the coefficient is a fraction. -/
structure Sound (J : Js) (t : Term) : Prop where
  indeterminates : t.indeterminates.Sound J
  denominator : t.coefficientDenominator ≠ 0

theorem Proper.sound {t : Term} (h : t.Proper J ρ) : t.Sound J :=
  ⟨h.indeterminates.sound, h.denominator⟩

end Term

theorem reducedTerm_spec (i : Indeterminates) (n : ℤ) {d : ℤ} (hd : d ≠ 0) :
    ∃ t, reducedTerm i n d = .ok t ∧ t.indeterminates = i ∧ t.coefficientDenominator ≠ 0
      ∧ (t.coefficientNumerator / t.coefficientDenominator : ℚ) = n / d := by
  obtain ⟨⟨n', hn⟩, ⟨d', hd'⟩⟩ := findGcd_dvd n d
  generalize hg : findGcd n d = g at hn hd'
  have hgne : g ≠ 0 := by
    rintro rfl
    rw [zero_mul] at hd'
    exact hd hd'
  have hdne : d' ≠ 0 := by
    rintro rfl
    rw [mul_zero] at hd'
    exact hd hd'
  refine ⟨⟨i, n', d'⟩, ?_, rfl, hdne, ?_⟩
  · rw [reducedTerm, hg]
    simp only [bigDiv, if_neg hgne]
    rw [hn, hd', Int.mul_tdiv_cancel_left _ hgne, Int.mul_tdiv_cancel_left _ hgne]
    rfl
  · have hgq : (g : ℚ) ≠ 0 := by exact_mod_cast hgne
    rw [hn, hd']
    push_cast
    rw [mul_div_mul_left _ _ hgq]

namespace Polynomial

variable {ρ : Expr → ℚ}

theorem before_iff {a b : Term} : before J a b ↔ a.rank J ≤ b.rank J :=
  (Indeterminates.compare_compares _ _).ne_gt

instance : Std.Total (before J) where
  total x y := by
    rw [before_iff, before_iff]
    exact le_total _ _

instance : IsTrans Term (before J) where
  trans x y z hxy hyz := by
    rw [before_iff] at hxy hyz ⊢
    exact hxy.trans hyz

def value (ρ : Expr → ℚ) (p : Polynomial) : ℚ := (p.map (Term.value ρ)).sum

/-- What `simplifyTerms` makes of sound terms. -/
structure Reduced (J : Js) (p : Polynomial) : Prop where
  sound : ∀ t ∈ p, t.Sound J
  nonzero : ∀ t ∈ p, t.coefficientNumerator ≠ 0
  strict : p.Pairwise fun a b => a.rank J < b.rank J

/-- A result of `simplifyTerms`: different products in order, none with
coefficient 0. -/
structure Simplified (J : Js) (ρ : Expr → ℚ) (p : Polynomial) : Prop where
  proper : ∀ t ∈ p, t.Proper J ρ
  nonzero : ∀ t ∈ p, t.coefficientNumerator ≠ 0
  strict : p.Pairwise fun a b => a.rank J < b.rank J

theorem Simplified.reduced {p : Polynomial} (h : Simplified J ρ p) : Reduced J p :=
  ⟨fun t ht => (h.proper t ht).sound, h.nonzero, h.strict⟩

theorem value_cons (t : Term) (p : Polynomial) : value ρ (t :: p) = t.value ρ + value ρ p := by
  simp [value]

theorem value_append (p q : Polynomial) : value ρ (p ++ q) = value ρ p + value ρ q := by
  simp [value]

theorem value_filter (p : Polynomial) :
    value ρ (p.filter fun t => t.coefficientNumerator ≠ 0) = value ρ p := by
  induction p with
  | nil => rfl
  | cons t p ih =>
      by_cases ht : t.coefficientNumerator = 0
      · rw [List.filter_cons_of_neg (by simpa using ht), ih, value_cons, Term.value, ht]
        simp
      · rw [List.filter_cons_of_pos (by simpa using ht), value_cons, ih, value_cons]

/-- Equal products end up in the last of their terms, and the others have coefficient 0. -/
theorem mergeTerms_ok (t : Term) (ts : List Term)
    (hden : ∀ u ∈ t :: ts, u.coefficientDenominator ≠ 0) (hsorted : (t :: ts).Pairwise (before J)) :
    ∃ ts', mergeTerms J t ts = .ok ts' ∧ (∀ u ∈ ts', u.coefficientDenominator ≠ 0)
      ∧ (∀ u ∈ ts', ∃ u' ∈ t :: ts, u'.indeterminates = u.indeterminates)
      ∧ (ts'.filter fun t => t.coefficientNumerator ≠ 0).Pairwise
          fun a b => a.rank J < b.rank J := by
  induction ts generalizing t with
  | nil =>
      refine ⟨[t], rfl, hden, fun u hu => ⟨u, hu, rfl⟩, ?_⟩
      exact (List.pairwise_singleton _ t).sublist List.filter_sublist
  | cons t2 rest ih =>
      have h1 := hden t List.mem_cons_self
      have h2 := hden t2 (List.mem_cons_of_mem _ List.mem_cons_self)
      rw [mergeTerms]
      split_ifs with hcmp
      · -- both coefficients end up in the second term
        obtain ⟨s, hs, hsi, hsd, -⟩ := reducedTerm_spec t2.indeterminates
          (t.coefficientNumerator * t2.coefficientDenominator
            + t2.coefficientNumerator * t.coefficientDenominator) (mul_ne_zero h1 h2)
        have hsden : ∀ u ∈ s :: rest, u.coefficientDenominator ≠ 0 := by
          intro u hu
          rcases List.mem_cons.mp hu with rfl | hu
          · exact hsd
          · exact hden u (List.mem_cons_of_mem _ (List.mem_cons_of_mem _ hu))
        have hssorted : (s :: rest).Pairwise (before J) := by
          rw [List.pairwise_cons] at hsorted
          have htail := List.pairwise_cons.mp hsorted.2
          refine List.pairwise_cons.mpr ⟨fun u hu => ?_, htail.2⟩
          have hle := htail.1 u hu
          rw [before_iff, Term.rank] at hle ⊢
          rw [hsi]
          exact hle
        obtain ⟨ts', hts', hden', hinds, hstrict⟩ := ih s hsden hssorted
        refine ⟨{ t with coefficientNumerator := 0 } :: ts', ?_, ?_, ?_, ?_⟩
        · rw [hs]
          show (do let ts ← mergeTerms J s rest; pure (_ :: ts)) = _
          rw [hts']
          rfl
        · intro u hu
          rcases List.mem_cons.mp hu with rfl | hu
          · exact h1
          · exact hden' u hu
        · intro u hu
          rcases List.mem_cons.mp hu with rfl | hu
          · exact ⟨t, List.mem_cons_self, rfl⟩
          · obtain ⟨u', hu', hinds'⟩ := hinds u hu
            rcases List.mem_cons.mp hu' with rfl | hu'
            · exact ⟨t2, List.mem_cons_of_mem _ List.mem_cons_self, by rw [← hinds', hsi]⟩
            · exact ⟨u', List.mem_cons_of_mem _ (List.mem_cons_of_mem _ hu'), hinds'⟩
        · rw [List.filter_cons_of_neg (by simp)]
          exact hstrict
      · have hsorted' := List.pairwise_cons.mp hsorted
        obtain ⟨ts', hts', hden', hinds, hstrict⟩ :=
          ih t2 (fun u hu => hden u (List.mem_cons_of_mem _ hu)) hsorted'.2
        have hlt : ∀ u ∈ t2 :: rest, t.rank J < u.rank J := by
          have hne : t.rank J ≠ t2.rank J := fun h =>
            hcmp ((Indeterminates.compare_compares _ _).eq_eq.mpr h)
          have hlt2 : t.rank J < t2.rank J :=
            lt_of_le_of_ne (before_iff.mp (hsorted'.1 t2 List.mem_cons_self)) hne
          intro u hu
          rcases List.mem_cons.mp hu with rfl | hu
          · exact hlt2
          · exact hlt2.trans_le (before_iff.mp ((List.pairwise_cons.mp hsorted'.2).1 u hu))
        refine ⟨t :: ts', ?_, ?_, ?_, ?_⟩
        · rw [hts']
          rfl
        · intro u hu
          rcases List.mem_cons.mp hu with rfl | hu
          · exact h1
          · exact hden' u hu
        · intro u hu
          rcases List.mem_cons.mp hu with rfl | hu
          · exact ⟨u, List.mem_cons_self, rfl⟩
          · obtain ⟨u', hu', hinds'⟩ := hinds u hu
            exact ⟨u', List.mem_cons_of_mem _ hu', hinds'⟩
        · by_cases hzero : t.coefficientNumerator = 0
          · rw [List.filter_cons_of_neg (by simpa using hzero)]
            exact hstrict
          · rw [List.filter_cons_of_pos (by simpa using hzero)]
            refine List.pairwise_cons.mpr ⟨fun u hu => ?_, hstrict⟩
            obtain ⟨u', hu', hinds'⟩ := hinds u (List.mem_of_mem_filter hu)
            have hrank : u'.rank J = u.rank J := congrArg (Indeterminates.rank J) hinds'
            rw [← hrank]
            exact hlt u' hu'

theorem mergeTerms_value {t : Term} {ts ts' : List Term} (hproper : ∀ u ∈ t :: ts, u.Proper J ρ)
    (hmerged : mergeTerms J t ts = .ok ts') : value ρ ts' = value ρ (t :: ts) := by
  induction ts generalizing t ts' with
  | nil =>
      cases hmerged
      rfl
  | cons t2 rest ih =>
      have h1 := hproper t List.mem_cons_self
      have h2 := hproper t2 (List.mem_cons_of_mem _ List.mem_cons_self)
      rw [mergeTerms] at hmerged
      split_ifs at hmerged with hcmp
      · have hrank : t.rank J = t2.rank J := (Indeterminates.compare_compares _ _).eq_eq.mp hcmp
        have hsame := h1.indeterminates.ext h2.indeterminates hrank
        obtain ⟨s, hs, hsi, hsd, hsq⟩ := reducedTerm_spec t2.indeterminates
          (t.coefficientNumerator * t2.coefficientDenominator
            + t2.coefficientNumerator * t.coefficientDenominator)
          (mul_ne_zero h1.denominator h2.denominator)
        have hsproper : ∀ u ∈ s :: rest, u.Proper J ρ := by
          intro u hu
          rcases List.mem_cons.mp hu with rfl | hu
          · exact ⟨by rw [hsi]; exact h2.indeterminates, hsd⟩
          · exact hproper u (List.mem_cons_of_mem _ (List.mem_cons_of_mem _ hu))
        obtain ⟨s', hs', hmerged⟩ := bind_eq_ok_iff.mp hmerged
        obtain rfl : s = s' := Except.ok.inj (hs.symm.trans hs')
        obtain ⟨ts'', hrest, hmerged⟩ := bind_eq_ok_iff.mp hmerged
        cases hmerged
        have hd1 : (t.coefficientDenominator : ℚ) ≠ 0 := by exact_mod_cast h1.denominator
        have hd2 : (t2.coefficientDenominator : ℚ) ≠ 0 := by exact_mod_cast h2.denominator
        have hsvalue : s.value ρ = t.value ρ + t2.value ρ := by
          unfold Term.value
          rw [hsq, hsi, hsame]
          push_cast
          field_simp
        rw [value_cons, ih hsproper hrest, value_cons, value_cons, value_cons, hsvalue]
        simp only [Term.value, Int.cast_zero, zero_div, zero_mul]
        ring
      · obtain ⟨ts'', hrest, hmerged⟩ := bind_eq_ok_iff.mp hmerged
        cases hmerged
        rw [value_cons, ih (fun u hu => hproper u (List.mem_cons_of_mem _ hu)) hrest, value_cons t]

theorem simplifyTerms_ok {terms : List Term} (h : ∀ t ∈ terms, t.Sound J) :
    ∃ p, simplifyTerms J terms = .ok p ∧ Reduced J p
      ∧ ∀ u ∈ p, ∃ u' ∈ terms, u'.indeterminates = u.indeterminates := by
  have hperm := List.perm_insertionSort (before J) terms
  have hsorted := List.pairwise_insertionSort (before J) terms
  rw [simplifyTerms]
  cases hts : terms.insertionSort (before J) with
  | nil => exact ⟨[], rfl, ⟨fun _ h => (nomatch h), fun _ h => (nomatch h), .nil⟩, fun _ h => nomatch h⟩
  | cons t ts =>
      rw [hts] at hsorted hperm
      have hsound : ∀ u ∈ t :: ts, u.Sound J := fun u hu => h u (hperm.mem_iff.mp hu)
      obtain ⟨ts', hts', hden, hinds, hstrict⟩ :=
        mergeTerms_ok t ts (fun u hu => (hsound u hu).denominator) hsorted
      refine ⟨ts'.filter fun t => t.coefficientNumerator ≠ 0, bind_ok hts' rfl, ⟨?_, ?_, hstrict⟩, ?_⟩
      · intro u hu
        have hmem := List.mem_of_mem_filter hu
        obtain ⟨u', hu', hsame⟩ := hinds u hmem
        exact ⟨hsame ▸ (hsound u' hu').indeterminates, hden u hmem⟩
      · intro u hu
        simpa using (List.mem_filter.mp hu).2
      · intro u hu
        obtain ⟨u', hu', hsame⟩ := hinds u (List.mem_of_mem_filter hu)
        exact ⟨u', hperm.mem_iff.mp hu', hsame⟩

theorem simplifyTerms_value {terms : List Term} {p : Polynomial} (h : ∀ t ∈ terms, t.Proper J ρ)
    (hp : simplifyTerms J terms = .ok p) : value ρ p = value ρ terms := by
  have hperm := List.perm_insertionSort (before J) terms
  have hvalue : value ρ (terms.insertionSort (before J)) = value ρ terms :=
    (hperm.map _).sum_eq
  rw [simplifyTerms] at hp
  cases hts : terms.insertionSort (before J) with
  | nil =>
      rw [hts] at hp hvalue
      rw [← Except.ok.inj hp]
      exact hvalue
  | cons t ts =>
      rw [hts] at hp hvalue hperm
      obtain ⟨ts', hts', hp⟩ := bind_eq_ok_iff.mp hp
      have hmerged := mergeTerms_value (fun u hu => h u (hperm.mem_iff.mp hu)) hts'
      rw [← Except.ok.inj hp, ← hvalue, ← hmerged]
      exact value_filter ts'

theorem simplifyTerms_spec {terms : List Term} (h : ∀ t ∈ terms, t.Proper J ρ) :
    ∃ p, simplifyTerms J terms = .ok p ∧ Simplified J ρ p ∧ value ρ p = value ρ terms := by
  obtain ⟨p, hp, hreduced, hinds⟩ := simplifyTerms_ok fun t ht => (h t ht).sound
  refine ⟨p, hp, ⟨fun u hu => ?_, hreduced.nonzero, hreduced.strict⟩, simplifyTerms_value h hp⟩
  obtain ⟨u', hu', hsame⟩ := hinds u hu
  exact ⟨hsame ▸ (h u' hu').indeterminates, (hreduced.sound u hu).denominator⟩

/-! ## The operations -/

/-- A polynomial whose terms are proper, simplified or not. -/
def Proper (J : Js) (ρ : Expr → ℚ) (p : Polynomial) : Prop := ∀ t ∈ p, t.Proper J ρ

theorem Simplified.isProper {p : Polynomial} (h : Simplified J ρ p) : Proper J ρ p := h.proper

variable {p q : Polynomial}

theorem add_spec (hp : Proper J ρ p) (hq : Proper J ρ q) :
    ∃ r, add J p q = .ok r ∧ Simplified J ρ r ∧ value ρ r = value ρ p + value ρ q := by
  have hpq : ∀ t ∈ p ++ q, t.Proper J ρ := fun t ht => (List.mem_append.mp ht).elim (hp t) (hq t)
  obtain ⟨r, hr, hsimple, hvalue⟩ := simplifyTerms_spec hpq
  exact ⟨r, hr, hsimple, hvalue.trans (value_append p q)⟩

theorem Proper.negation (hp : Proper J ρ p) : Proper J ρ p.negation := by
  intro t ht
  obtain ⟨u, hu, rfl⟩ := List.mem_map.mp ht
  exact ⟨(hp u hu).indeterminates, (hp u hu).denominator⟩

theorem value_negation (p : Polynomial) : value ρ p.negation = -value ρ p := by
  induction p with
  | nil => simp [Polynomial.negation, value]
  | cons t p ih =>
      show value ρ ({ t with coefficientNumerator := t.coefficientNumerator * -1 }
        :: Polynomial.negation p) = _
      rw [value_cons, ih, value_cons, Term.value, Term.value]
      push_cast
      ring

theorem subtract_spec (hp : Proper J ρ p) (hq : Proper J ρ q) :
    ∃ r, subtract J p q = .ok r ∧ Simplified J ρ r ∧ value ρ r = value ρ p - value ρ q := by
  obtain ⟨r, hr, hsimple, hvalue⟩ := add_spec hp hq.negation
  exact ⟨r, hr, hsimple, by rw [hvalue, value_negation, sub_eq_add_neg]⟩

/-- One row of the product. -/
theorem multiplyTerm_spec {t : Term} (ht : t.Proper J ρ) (hq : Proper J ρ q) :
    ∃ r, q.mapM (fun u => reducedTerm
          (Indeterminates.multiply J t.indeterminates u.indeterminates)
          (t.coefficientNumerator * u.coefficientNumerator)
          (t.coefficientDenominator * u.coefficientDenominator)) = .ok r
      ∧ Proper J ρ r ∧ value ρ r = t.value ρ * value ρ q := by
  induction q with
  | nil => exact ⟨[], rfl, fun _ h => (nomatch h), by simp [value]⟩
  | cons u q ih =>
      obtain ⟨r, hr, hproper, hvalue⟩ := ih fun u hu => hq u (List.mem_cons_of_mem _ hu)
      have hu := hq u List.mem_cons_self
      obtain ⟨hmul, hmulvalue⟩ := ht.indeterminates.multiply hu.indeterminates
      obtain ⟨s, hs, hsi, hsd, hsq⟩ := reducedTerm_spec
        (Indeterminates.multiply J t.indeterminates u.indeterminates)
        (t.coefficientNumerator * u.coefficientNumerator)
        (mul_ne_zero ht.denominator hu.denominator)
      refine ⟨s :: r, ?_, ?_, ?_⟩
      · rw [List.mapM_cons, hs, hr]
        rfl
      · intro v hv
        rcases List.mem_cons.mp hv with rfl | hv
        · exact ⟨by rw [hsi]; exact hmul, hsd⟩
        · exact hproper v hv
      · rw [value_cons, hvalue, value_cons, Term.value, hsq, hsi, hmulvalue, Term.value, Term.value]
        push_cast
        rw [mul_div_mul_comm]
        ring

theorem multiply_spec (hp : Proper J ρ p) (hq : Proper J ρ q) :
    ∃ r, multiply J p q = .ok r ∧ Simplified J ρ r ∧ value ρ r = value ρ p * value ρ q := by
  obtain ⟨rows, hrows, hspec⟩ := mapM_ok fun t ht => multiplyTerm_spec (hp t ht) hq
  have hrowsSpec : Proper J ρ rows.flatten ∧ value ρ rows.flatten = value ρ p * value ρ q := by
    clear hrows
    induction hspec with
    | nil => exact ⟨fun _ h => (nomatch h), by simp [value]⟩
    | @cons t r p rows hr _ ih =>
        obtain ⟨hproper, hvalue⟩ := ih fun u hu => hp u (List.mem_cons_of_mem _ hu)
        rw [List.flatten_cons]
        refine ⟨fun u hu => (List.mem_append.mp hu).elim (hr.1 u) (hproper u), ?_⟩
        rw [value_append, hr.2, hvalue, value_cons, add_mul]
  obtain ⟨r, hr, hsimple, hvalue⟩ := simplifyTerms_spec hrowsSpec.1
  refine ⟨r, ?_, hsimple, hvalue.trans hrowsSpec.2⟩
  rw [multiply, hrows]
  exact hr

/-- Only the reciprocal of a single term is one. -/
theorem reciprocal_single {t : Term} (ht : t.Proper J ρ) (hne : t.value ρ ≠ 0) :
    Proper J ρ (reciprocal [t]) ∧ value ρ (reciprocal [t]) = (t.value ρ)⁻¹ := by
  have hn : (t.coefficientNumerator : ℚ) ≠ 0 := by
    intro h
    rw [Term.value, h] at hne
    simp at hne
  have hi : t.indeterminates.value ρ ≠ 0 := right_ne_zero_of_mul hne
  constructor
  · intro u hu
    obtain rfl := List.mem_singleton.mp hu
    exact ⟨ht.indeterminates.reciprocal (ht.indeterminates.ne_zero_of_value hi),
      by exact_mod_cast hn⟩
  · show value ρ [_] = _
    rw [value_cons, Term.value, Term.value, Indeterminates.value_reciprocal]
    simp only [value, List.map_nil, List.sum_nil, add_zero]
    rw [mul_inv, inv_div]

/-- Division by what has one term. -/
theorem divide_spec (hp : Proper J ρ p) (hq : Proper J ρ q) (hlen : q.length ≤ 1)
    (hne : value ρ q ≠ 0) :
    ∃ r, divide J p q = .ok r ∧ Simplified J ρ r ∧ value ρ r = value ρ p / value ρ q := by
  match q, hlen with
  | [], _ => exact absurd rfl hne
  | [t], _ =>
      have hvalue : value ρ [t] = t.value ρ := by simp [value]
      rw [hvalue] at hne ⊢
      obtain ⟨hproper, hinv⟩ := reciprocal_single (hq t List.mem_cons_self) hne
      obtain ⟨r, hr, hsimple, hmul⟩ := multiply_spec hp hproper
      exact ⟨r, hr, hsimple, by rw [hmul, hinv, div_eq_mul_inv]⟩

theorem fromIndeterminate_spec (p : JsString) :
    Proper J ρ (fromIndeterminate (.ofParam p)) ∧
      value ρ (fromIndeterminate (.ofParam p)) = ρ (.ofParam p) := by
  constructor
  · intro t ht
    obtain rfl := List.mem_singleton.mp ht
    refine ⟨⟨?_, ?_, ?_, List.pairwise_singleton _ _⟩, one_ne_zero⟩
    · intro kw hkw
      obtain rfl := List.mem_singleton.mp hkw
      exact ⟨p, rfl⟩
    · intro kw hkw
      obtain rfl := List.mem_singleton.mp hkw
      exact one_ne_zero
    · intro kw hkw hneg
      obtain rfl := List.mem_singleton.mp hkw
      simp at hneg
  · simp [fromIndeterminate, value, Term.value, Indeterminates.value]

/-- A term without indeterminates. -/
theorem constantTerm_proper {n d : ℤ} (hd : d ≠ 0) : Proper J ρ [⟨[], n, d⟩] := by
  intro t ht
  obtain rfl := List.mem_singleton.mp ht
  exact ⟨.nil, hd⟩

theorem value_constantTerm (n d : ℤ) : value ρ [⟨[], n, d⟩] = n / d := by
  simp [value, Term.value, Indeterminates.value]

/-! ## The operations on sound terms -/

/-- Every term is sound; which key stands for what is left open. -/
def Sound (J : Js) (p : Polynomial) : Prop := ∀ t ∈ p, t.Sound J

theorem constantTerm_sound {n d : ℤ} (hd : d ≠ 0) : Sound J [⟨[], n, d⟩] := by
  intro t ht
  obtain rfl := List.mem_singleton.mp ht
  exact ⟨⟨fun _ h => (nomatch h), .nil⟩, hd⟩

theorem fromConstant_sound (c : ℚ) : Sound J (fromConstant c) := by
  unfold fromConstant
  simp only
  by_cases hone : c.den = 1
  · rw [if_pos hone]
    exact constantTerm_sound one_ne_zero
  · rw [if_neg hone]
    exact constantTerm_sound (Int.natCast_ne_zero.mpr c.den_nz)

theorem fromIndeterminate_sound {e : Expr} (he : e ≠ Expr.null) : Sound J (fromIndeterminate e) := by
  intro t ht
  obtain rfl := List.mem_singleton.mp ht
  refine ⟨⟨fun kw hkw => ?_, List.pairwise_singleton _ _⟩, one_ne_zero⟩
  obtain rfl := List.mem_singleton.mp hkw
  exact he

theorem Sound.negation (hp : Sound J p) : Sound J p.negation := by
  intro t ht
  obtain ⟨u, hu, rfl⟩ := List.mem_map.mp ht
  exact ⟨(hp u hu).indeterminates, (hp u hu).denominator⟩

/-- The coefficient of a reciprocal is a fraction unless the coefficient was 0. -/
theorem Sound.reciprocal (hp : Sound J p) (hne : ∀ t ∈ p, t.coefficientNumerator ≠ 0) :
    Sound J p.reciprocal := by
  intro t ht
  obtain ⟨u, hu, rfl⟩ := List.mem_map.mp ht
  exact ⟨(hp u hu).indeterminates.reciprocal, hne u hu⟩

theorem add_ok (hp : Sound J p) (hq : Sound J q) : ∃ r, add J p q = .ok r ∧ Reduced J r := by
  obtain ⟨r, hr, hreduced, -⟩ := simplifyTerms_ok fun t (ht : t ∈ p ++ q) =>
    (List.mem_append.mp ht).elim (hp t) (hq t)
  exact ⟨r, hr, hreduced⟩

theorem subtract_ok (hp : Sound J p) (hq : Sound J q) :
    ∃ r, subtract J p q = .ok r ∧ Reduced J r :=
  add_ok hp hq.negation

theorem multiply_ok (hp : Sound J p) (hq : Sound J q) :
    ∃ r, multiply J p q = .ok r ∧ Reduced J r := by
  have hrow : ∀ t ∈ p, ∃ row, q.mapM (fun u => reducedTerm
          (Indeterminates.multiply J t.indeterminates u.indeterminates)
          (t.coefficientNumerator * u.coefficientNumerator)
          (t.coefficientDenominator * u.coefficientDenominator)) = .ok row ∧ Sound J row := by
    intro t ht
    have hterm : ∀ u ∈ q, ∃ s, reducedTerm
          (Indeterminates.multiply J t.indeterminates u.indeterminates)
          (t.coefficientNumerator * u.coefficientNumerator)
          (t.coefficientDenominator * u.coefficientDenominator) = .ok s ∧ s.Sound J := by
      intro u hu
      obtain ⟨s, hs, hsi, hsd, -⟩ := reducedTerm_spec
        (Indeterminates.multiply J t.indeterminates u.indeterminates)
        (t.coefficientNumerator * u.coefficientNumerator)
        (mul_ne_zero (hp t ht).denominator (hq u hu).denominator)
      exact ⟨s, hs, hsi ▸ (hp t ht).indeterminates.multiply (hq u hu).indeterminates, hsd⟩
    obtain ⟨row, hrow, hall⟩ := mapM_ok hterm
    exact ⟨row, hrow, forall_mem_of_forall₂ hall⟩
  obtain ⟨rows, hrows, hall⟩ := mapM_ok hrow
  have hflat : Sound J rows.flatten := by
    intro t ht
    obtain ⟨row, hmem, ht⟩ := List.mem_flatten.mp ht
    exact forall_mem_of_forall₂ hall row hmem t ht
  obtain ⟨r, hr, hreduced, -⟩ := simplifyTerms_ok hflat
  refine ⟨r, ?_, hreduced⟩
  rw [multiply, hrows]
  exact hr

theorem divide_ok (hp : Sound J p) (hq : Sound J q) (hne : ∀ t ∈ q, t.coefficientNumerator ≠ 0) :
    ∃ r, divide J p q = .ok r ∧ Reduced J r :=
  multiply_ok hp (hq.reciprocal hne)

/-! ## Scaling and constants -/

/-- What is in order already is left alone. -/
theorem mergeTerms_strict (t : Term) (ts : List Term)
    (h : (t :: ts).Pairwise fun a b => a.rank J < b.rank J) : mergeTerms J t ts = .ok (t :: ts) := by
  induction ts generalizing t with
  | nil => rfl
  | cons t2 rest ih =>
      have hpair := List.pairwise_cons.mp h
      have hne : Indeterminates.compare J t.indeterminates t2.indeterminates ≠ .eq := fun heq =>
        (hpair.1 t2 List.mem_cons_self).ne ((Indeterminates.compare_compares _ _).eq_eq.mp heq)
      rw [mergeTerms, if_neg hne, ih t2 hpair.2]
      rfl

theorem simplifyTerms_strict {terms : List Term}
    (hstrict : terms.Pairwise fun a b => a.rank J < b.rank J)
    (hne : ∀ t ∈ terms, t.coefficientNumerator ≠ 0) : simplifyTerms J terms = .ok terms := by
  have hsorted : terms.insertionSort (before J) = terms :=
    (hstrict.imp fun h => before_iff.mpr h.le).insertionSort_eq
  rw [simplifyTerms, hsorted]
  cases terms with
  | nil => rfl
  | cons t ts =>
      simp only
      rw [mergeTerms_strict t ts hstrict]
      show Except.ok (List.filter _ (t :: ts)) = _
      rw [List.filter_eq_self.mpr fun u hu => by simpa using hne u hu]

/-- Multiplying by a constant that is not zero keeps the terms. -/
theorem Reduced.multiply_constant (hp : Reduced J p) {n d : ℤ} (hn : n ≠ 0) (hd : d ≠ 0) :
    ∃ r, multiply J p [⟨[], n, d⟩] = .ok r ∧ Reduced J r
      ∧ r.map (·.indeterminates) = p.map (·.indeterminates) := by
  obtain ⟨r, hr, hreduced⟩ := multiply_ok hp.sound (constantTerm_sound (n := n) hd)
  refine ⟨r, hr, hreduced, ?_⟩
  have hterm : ∀ t ∈ p, ∃ row, [(⟨[], n, d⟩ : Term)].mapM (fun u => reducedTerm
          (Indeterminates.multiply J t.indeterminates u.indeterminates)
          (t.coefficientNumerator * u.coefficientNumerator)
          (t.coefficientDenominator * u.coefficientDenominator)) = .ok row
      ∧ ∃ s, row = [s] ∧ s.indeterminates = t.indeterminates ∧ s.coefficientNumerator ≠ 0 := by
    intro t ht
    have htd := (hp.sound t ht).denominator
    obtain ⟨s, hs, hsi, hsd, hsq⟩ := reducedTerm_spec (Indeterminates.multiply J t.indeterminates [])
      (t.coefficientNumerator * n) (mul_ne_zero htd hd)
    refine ⟨[s], ?_, s, rfl, ?_, ?_⟩
    · rw [List.mapM_cons, hs]
      rfl
    · rw [hsi, (hp.sound t ht).indeterminates.multiply_nil]
    · intro hzero
      rw [hzero, Int.cast_zero, zero_div, eq_comm, div_eq_zero_iff] at hsq
      have hnum : t.coefficientNumerator * n ≠ 0 := mul_ne_zero (hp.nonzero t ht) hn
      have hden : t.coefficientDenominator * d ≠ 0 := mul_ne_zero htd hd
      exact hsq.elim (by exact_mod_cast hnum) (by exact_mod_cast hden)
  obtain ⟨rows, hrows, hspec⟩ := mapM_ok hterm
  have hflat : rows.flatten.map (·.indeterminates) = p.map (·.indeterminates)
      ∧ ∀ t ∈ rows.flatten, t.coefficientNumerator ≠ 0 := by
    clear hrows hr hreduced hterm hp
    induction hspec with
    | nil => exact ⟨rfl, fun _ h => (nomatch h)⟩
    | cons hrow _ ih =>
        obtain ⟨s, rfl, hsi, hsn⟩ := hrow
        rw [List.flatten_cons]
        refine ⟨by rw [List.map_append, List.map_cons, List.map_nil, ih.1, hsi]; rfl, ?_⟩
        intro t ht
        rcases List.mem_append.mp ht with ht | ht
        · rw [List.mem_singleton.mp ht]
          exact hsn
        · exact ih.2 t ht
  have hstrict : rows.flatten.Pairwise fun a b => a.rank J < b.rank J := by
    have hinds : (p.map (·.indeterminates)).Pairwise fun a b => a.rank J < b.rank J :=
      List.pairwise_map.mpr hp.strict
    rw [← hflat.1] at hinds
    have hflatStrict := List.pairwise_map.mp hinds
    exact hflatStrict
  rw [multiply, hrows] at hr
  have hsame : simplifyTerms J rows.flatten = .ok r := hr
  rw [simplifyTerms_strict hstrict hflat.2] at hsame
  rw [← Except.ok.inj hsame]
  exact hflat.1

theorem multiply_constant (hp : Simplified J ρ p) {n d : ℤ} (hn : n ≠ 0) (hd : d ≠ 0) :
    ∃ r, multiply J p [⟨[], n, d⟩] = .ok r ∧ Simplified J ρ r ∧ value ρ r = value ρ p * (n / d)
      ∧ r.map (·.indeterminates) = p.map (·.indeterminates) := by
  obtain ⟨r, hr, hsimple, hvalue⟩ := multiply_spec hp.isProper (constantTerm_proper hd)
  obtain ⟨r', hr', -, hinds⟩ := hp.reduced.multiply_constant hn hd
  obtain rfl : r = r' := Except.ok.inj (hr.symm.trans hr')
  exact ⟨r, hr, hsimple, by rw [hvalue, value_constantTerm], hinds⟩

/-- A polynomial without indeterminates has one term at most. -/
theorem Reduced.length_le_one (hp : Reduced J p) (h : ∀ t ∈ p, t.indeterminates = []) :
    p.length ≤ 1 := by
  match p, hp, h with
  | [], _, _ => exact Nat.zero_le _
  | [_], _, _ => exact le_refl _
  | t :: u :: p, hp, h =>
      have hlt := (List.pairwise_cons.mp hp.strict).1 u List.mem_cons_self
      rw [Term.rank, Term.rank, h t List.mem_cons_self,
        h u (List.mem_cons_of_mem _ List.mem_cons_self)] at hlt
      exact absurd hlt (lt_irrefl _)

end Polynomial

end GenieAcs
