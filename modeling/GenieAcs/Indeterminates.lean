import GenieAcs.JsonText
import Mathlib.Data.Prod.Lex
import Mathlib.Algebra.BigOperators.Ring.List

/-!
# Products of powers

`Indeterminates.compare` is the order of a tuple, so sorting by it sorts.
Over values for the keys a product has a value, and `multiply` multiplies the
values: a key that has stood in a divisor is not zero, which is what
cancelling its powers rests on.
-/

namespace GenieAcs

variable {J : Js}

namespace Indeterminates

/-! ## The order of products -/

def keyRank (J : Js) (k : Expr) : ℤ ×ₗ JsString := toLex (-((json J k).length : ℤ), json J k)

theorem keyRank_lt {a b : Expr} : keyRank J a < keyRank J b ↔
    (json J b).length < (json J a).length
      ∨ (json J a).length = (json J b).length ∧ json J a < json J b := by
  unfold keyRank
  rw [Prod.Lex.toLex_lt_toLex]
  simp only [neg_lt_neg_iff, Int.ofNat_lt, neg_inj, Int.natCast_inj]

theorem keyRank_inj {a b : Expr} : keyRank J a = keyRank J b ↔ json J a = json J b := by
  unfold keyRank
  constructor
  · intro h
    exact congrArg (fun x => (ofLex x).2) h
  · intro h
    rw [h]

theorem keyBefore_iff {a b : Expr} : keyBefore J a b ↔ keyRank J a ≤ keyRank J b := by
  rw [← not_lt, keyRank_lt]
  show (if (json J a).length ≠ (json J b).length then (json J b).length < (json J a).length
    else json J a ≤ json J b) ↔ _
  split_ifs with hlen
  · constructor
    · intro h
      omega
    · intro h
      omega
  · rw [not_or, not_and, not_lt, not_lt]
    constructor
    · intro h
      exact ⟨by omega, fun _ => h⟩
    · intro h
      exact h.2 (by omega)

instance : Std.Total (fun x y : Expr × ℤ => keyBefore J x.1 y.1) where
  total x y := by
    rw [keyBefore_iff, keyBefore_iff]
    exact le_total _ _

instance : IsTrans (Expr × ℤ) (fun x y => keyBefore J x.1 y.1) where
  trans x y z hxy hyz := by
    rw [keyBefore_iff] at hxy hyz ⊢
    exact hxy.trans hyz

/-- The rank of one power in a product. -/
def powerRank (J : Js) (kw : Expr × ℤ) : ℤ ×ₗ ℤ ×ₗ JsString := toLex (-kw.2, keyRank J kw.1)

theorem powerRank_lt {x y : Expr × ℤ} :
    powerRank J x < powerRank J y ↔ y.2 < x.2 ∨ x.2 = y.2 ∧ keyRank J x.1 < keyRank J y.1 := by
  unfold powerRank
  rw [Prod.Lex.toLex_lt_toLex]
  simp only [neg_lt_neg_iff, neg_inj]

theorem powerRank_inj {x y : Expr × ℤ} :
    powerRank J x = powerRank J y ↔ x.2 = y.2 ∧ json J x.1 = json J y.1 := by
  unfold powerRank
  constructor
  · intro h
    refine ⟨?_, keyRank_inj.mp (congrArg (fun x => (ofLex x).2) h)⟩
    exact neg_inj.mp (congrArg (fun x => (ofLex x).1) h)
  · rintro ⟨hw, hk⟩
    rw [hw, keyRank_inj.mpr hk]

theorem compareKeys_compares (a b : Indeterminates) (hlen : a.length = b.length) :
    (compareKeys J a b).Compares (a.map (powerRank J)) (b.map (powerRank J)) := by
  induction a, b using compareKeys.induct J with
  | case1 k1 w1 as k2 w2 bs hw hlt =>
      rw [compareKeys, if_pos hw, if_pos hlt]
      exact List.cons_lt_cons_iff.mpr (Or.inl (powerRank_lt.mpr (Or.inl hlt)))
  | case2 k1 w1 as k2 w2 bs hw hlt =>
      rw [compareKeys, if_pos hw, if_neg hlt]
      have hgt : w1 < w2 := lt_of_le_of_ne (not_lt.mp hlt) hw
      exact List.cons_lt_cons_iff.mpr (Or.inl (powerRank_lt.mpr (Or.inl hgt)))
  | case3 k1 w1 as k2 w2 bs hw hlt =>
      have hw' : w1 = w2 := not_not.mp hw
      rw [compareKeys, if_neg hw, if_pos hlt]
      have hkey : keyRank J k1 < keyRank J k2 := keyRank_lt.mpr (Or.inl hlt)
      exact List.cons_lt_cons_iff.mpr (Or.inl (powerRank_lt.mpr (Or.inr ⟨hw', hkey⟩)))
  | case4 k1 w1 as k2 w2 bs hw hlt hgt =>
      have hw' : w1 = w2 := not_not.mp hw
      rw [compareKeys, if_neg hw, if_neg hlt, if_pos hgt]
      have hkey : keyRank J k2 < keyRank J k1 := keyRank_lt.mpr (Or.inl hgt)
      exact List.cons_lt_cons_iff.mpr (Or.inl (powerRank_lt.mpr (Or.inr ⟨hw'.symm, hkey⟩)))
  | case5 k1 w1 as k2 w2 bs hw hlt hgt htext =>
      have hw' : w1 = w2 := not_not.mp hw
      rw [compareKeys, if_neg hw, if_neg hlt, if_neg hgt, if_pos htext]
      have hkey : keyRank J k2 < keyRank J k1 := keyRank_lt.mpr (Or.inr ⟨by omega, htext⟩)
      exact List.cons_lt_cons_iff.mpr (Or.inl (powerRank_lt.mpr (Or.inr ⟨hw'.symm, hkey⟩)))
  | case6 k1 w1 as k2 w2 bs hw hlt hgt htext htext' =>
      have hw' : w1 = w2 := not_not.mp hw
      rw [compareKeys, if_neg hw, if_neg hlt, if_neg hgt, if_neg htext, if_pos htext']
      have hkey : keyRank J k1 < keyRank J k2 := keyRank_lt.mpr (Or.inr ⟨by omega, htext'⟩)
      exact List.cons_lt_cons_iff.mpr (Or.inl (powerRank_lt.mpr (Or.inr ⟨hw', hkey⟩)))
  | case7 k1 w1 as k2 w2 bs hw hlt hgt htext htext' ih =>
      have hw' : w1 = w2 := not_not.mp hw
      rw [compareKeys, if_neg hw, if_neg hlt, if_neg hgt, if_neg htext, if_neg htext']
      have hkey : json J k1 = json J k2 := le_antisymm (not_lt.mp htext) (not_lt.mp htext')
      have hhead : powerRank J (k1, w1) = powerRank J (k2, w2) := powerRank_inj.mpr ⟨hw', hkey⟩
      have htail := ih (by simpa using hlen)
      rw [List.map_cons, List.map_cons, hhead]
      cases hcmp : compareKeys J as bs with
      | lt =>
          rw [hcmp] at htail
          exact List.cons_lt_cons_iff.mpr (Or.inr ⟨rfl, htail⟩)
      | gt =>
          rw [hcmp] at htail
          exact List.cons_lt_cons_iff.mpr (Or.inr ⟨rfl, htail⟩)
      | eq =>
          rw [hcmp] at htail
          exact congrArg _ htail
  | case8 a b h =>
      cases a with
      | nil =>
          cases b with
          | nil => exact rfl
          | cons y bs => cases hlen
      | cons x as =>
          cases b with
          | nil => cases hlen
          | cons y bs => exact absurd rfl (h x.1 x.2 as y.1 y.2 bs rfl)

/-- `compare` goes by the number of keys, then by the powers in turn. -/
def rank (J : Js) (a : Indeterminates) : ℤ ×ₗ List (ℤ ×ₗ ℤ ×ₗ JsString) :=
  toLex (-(a.length : ℤ), a.map (powerRank J))

theorem compare_compares (a b : Indeterminates) : (compare J a b).Compares (rank J a) (rank J b) := by
  unfold compare
  split_ifs with hlt hgt
  · exact Prod.Lex.toLex_lt_toLex.mpr (Or.inl (by show -(a.length : ℤ) < -b.length; omega))
  · exact Prod.Lex.toLex_lt_toLex.mpr (Or.inl (by show -(b.length : ℤ) < -a.length; omega))
  · have hlen : a.length = b.length := by omega
    have hkeys := @compareKeys_compares J a b hlen
    unfold rank
    rw [hlen]
    cases hcmp : compareKeys J a b with
    | lt =>
        rw [hcmp] at hkeys
        exact Prod.Lex.toLex_lt_toLex.mpr (Or.inr ⟨rfl, hkeys⟩)
    | gt =>
        rw [hcmp] at hkeys
        exact Prod.Lex.toLex_lt_toLex.mpr (Or.inr ⟨rfl, hkeys⟩)
    | eq =>
        rw [hcmp] at hkeys
        exact congrArg _ (congrArg _ hkeys)

/-! ## Products and their values -/

/-- The value of a product of powers. -/
def value (ρ : Expr → ℚ) (a : Indeterminates) : ℚ := (a.map fun kw => ρ kw.1 ^ kw.2).prod

/-- A product of powers of parameters in order; what has a negative exponent
is not zero. -/
structure Proper (J : Js) (ρ : Expr → ℚ) (a : Indeterminates) : Prop where
  params : ∀ kw ∈ a, ∃ p, kw.1 = .ofParam p
  exponents : ∀ kw ∈ a, kw.2 ≠ 0
  nonzero : ∀ kw ∈ a, kw.2 < 0 → ρ kw.1 ≠ 0
  sorted : a.Pairwise fun x y => keyBefore J x.1 y.1

/-- A product of powers in order, of whatever keys but null. -/
structure Sound (J : Js) (a : Indeterminates) : Prop where
  keys : ∀ kw ∈ a, kw.1 ≠ Expr.null
  sorted : a.Pairwise fun x y => keyBefore J x.1 y.1

variable {ρ : Expr → ℚ} {a b : Indeterminates}

theorem Proper.sound (h : Proper J ρ a) : Sound J a where
  keys kw hkw := by
    obtain ⟨p, hp⟩ := h.params kw hkw
    rw [hp]
    exact fun heq => nomatch heq
  sorted := h.sorted

theorem value_cons (kw : Expr × ℤ) (a : Indeterminates) :
    value ρ (kw :: a) = ρ kw.1 ^ kw.2 * value ρ a := by
  simp [value]

theorem Proper.nil : Proper J ρ [] where
  params _ h := nomatch h
  exponents _ h := nomatch h
  nonzero _ h := nomatch h
  sorted := List.Pairwise.nil

/-- Products of one rank are the same. -/
theorem Proper.ext (ha : Proper J ρ a) (hb : Proper J ρ b) (h : rank J a = rank J b) : a = b := by
  have hpowers : a.map (powerRank J) = b.map (powerRank J) := congrArg (fun x => (ofLex x).2) h
  have hinj : ∀ x ∈ a, ∀ y ∈ b, powerRank J x = powerRank J y → x = y := by
    intro x hx y hy hxy
    obtain ⟨hw, hk⟩ := powerRank_inj.mp hxy
    obtain ⟨p, hp⟩ := ha.params x hx
    obtain ⟨q, hq⟩ := hb.params y hy
    rw [hp, hq] at hk
    refine Prod.ext ?_ hw
    rw [hp, hq, json_ofParam_inj hk]
  clear ha hb h
  induction a generalizing b with
  | nil =>
      cases b with
      | nil => rfl
      | cons y b => cases hpowers
  | cons x a ih =>
      cases b with
      | nil => cases hpowers
      | cons y b =>
          rw [List.map_cons, List.map_cons, List.cons.injEq] at hpowers
          rw [hinj x List.mem_cons_self y List.mem_cons_self hpowers.1,
            ih hpowers.2 fun x hx y hy =>
              hinj x (List.mem_cons_of_mem _ hx) y (List.mem_cons_of_mem _ hy)]

/-- Exponents add up, also at zero when neither is negative. -/
theorem zpow_add_nonneg {x : ℚ} {m n : ℤ} (hm : m < 0 → x ≠ 0) (hn : n < 0 → x ≠ 0) :
    x ^ (m + n) = x ^ m * x ^ n := by
  apply zpow_add'
  by_cases hx : x = 0
  · have hm' : 0 ≤ m := not_lt.mp fun h => hm h hx
    have hn' : 0 ≤ n := not_lt.mp fun h => hn h hx
    right
    omega
  · exact Or.inl hx

theorem value_mulPower (k : Expr) (w : ℤ) (ha : ∀ kw ∈ a, kw.2 < 0 → ρ kw.1 ≠ 0)
    (hk : w < 0 → ρ k ≠ 0) : value ρ (mulPower a k w) = value ρ a * ρ k ^ w := by
  induction a with
  | nil => simp [mulPower, value]
  | cons x a ih =>
      obtain ⟨k', w'⟩ := x
      rw [mulPower, value_cons]
      split_ifs with hkey hzero
      · subst hkey
        have hadd := zpow_add_nonneg (ha (k', w') List.mem_cons_self) hk
        rw [hzero, zpow_zero] at hadd
        rw [mul_right_comm, ← hadd, one_mul]
      · subst hkey
        rw [value_cons, zpow_add_nonneg (ha (k', w') List.mem_cons_self) hk]
        ring
      · rw [value_cons, ih fun kw hkw => ha kw (List.mem_cons_of_mem _ hkw), mul_assoc]

/-- A power in the product is one of before, or the new one added to it. -/
theorem mem_mulPower {k : Expr} {w : ℤ} {x : Expr × ℤ} (h : x ∈ mulPower a k w) :
    x ∈ a ∨ x = (k, w) ∨ x.1 = k ∧ x.2 ≠ 0 ∧ ∃ w', (k, w') ∈ a ∧ x.2 = w' + w := by
  induction a with
  | nil =>
      rw [mulPower, List.mem_singleton] at h
      exact Or.inr (Or.inl h)
  | cons y a ih =>
      obtain ⟨k', w'⟩ := y
      rw [mulPower] at h
      split_ifs at h with hkey hzero
      · exact Or.inl (List.mem_cons_of_mem _ h)
      · rcases List.mem_cons.mp h with rfl | h
        · exact Or.inr (Or.inr ⟨hkey, hzero, w', by rw [hkey]; exact List.mem_cons_self, rfl⟩)
        · exact Or.inl (List.mem_cons_of_mem _ h)
      · rcases List.mem_cons.mp h with rfl | h
        · exact Or.inl List.mem_cons_self
        · rcases ih h with h | h | ⟨hx, hne, w'', hw'', hsum⟩
          · exact Or.inl (List.mem_cons_of_mem _ h)
          · exact Or.inr (Or.inl h)
          · exact Or.inr (Or.inr ⟨hx, hne, w'', List.mem_cons_of_mem _ hw'', hsum⟩)

/-- What is asked of each power of a product. -/
def ProperPower (ρ : Expr → ℚ) (kw : Expr × ℤ) : Prop :=
  (∃ p, kw.1 = .ofParam p) ∧ kw.2 ≠ 0 ∧ (kw.2 < 0 → ρ kw.1 ≠ 0)

theorem Proper.power (ha : Proper J ρ a) : ∀ kw ∈ a, ProperPower ρ kw :=
  fun kw hkw => ⟨ha.params kw hkw, ha.exponents kw hkw, ha.nonzero kw hkw⟩

theorem properPower_mulPower {x : Expr × ℤ} (ha : ∀ kw ∈ a, ProperPower ρ kw)
    (hx : ProperPower ρ x) : ∀ kw ∈ mulPower a x.1 x.2, ProperPower ρ kw := by
  intro kw hkw
  rcases mem_mulPower hkw with h | rfl | ⟨h, hne, w, hw, hsum⟩
  · exact ha kw h
  · exact hx
  · have hold : w < 0 → ρ x.1 ≠ 0 := (ha (x.1, w) hw).2.2
    refine ⟨by rw [h]; exact hx.1, hne, fun hneg => ?_⟩
    rw [h]
    by_cases hwneg : w < 0
    · exact hold hwneg
    · exact hx.2.2 (by omega)

/-- The part of `multiply` before the keys are sorted. -/
theorem foldl_mulPower (ha : ∀ kw ∈ a, ProperPower ρ kw) (hb : ∀ kw ∈ b, ProperPower ρ kw) :
    (∀ kw ∈ b.foldl (fun res kw => mulPower res kw.1 kw.2) a, ProperPower ρ kw)
      ∧ value ρ (b.foldl (fun res kw => mulPower res kw.1 kw.2) a) = value ρ a * value ρ b := by
  induction b generalizing a with
  | nil => exact ⟨ha, by simp [value]⟩
  | cons x b ih =>
      have hx := hb x List.mem_cons_self
      obtain ⟨hgood, hvalue⟩ := ih (properPower_mulPower ha hx)
        fun kw hkw => hb kw (List.mem_cons_of_mem _ hkw)
      refine ⟨hgood, ?_⟩
      rw [List.foldl_cons, hvalue, value_mulPower _ _ (fun kw hkw => (ha kw hkw).2.2) hx.2.2,
        value_cons, mul_assoc]

theorem keys_foldl_mulPower (ha : ∀ kw ∈ a, kw.1 ≠ Expr.null) (hb : ∀ kw ∈ b, kw.1 ≠ Expr.null) :
    ∀ kw ∈ b.foldl (fun res kw => mulPower res kw.1 kw.2) a, kw.1 ≠ Expr.null := by
  induction b generalizing a with
  | nil => exact ha
  | cons x b ih =>
      refine ih (fun kw hkw => ?_) fun kw hkw => hb kw (List.mem_cons_of_mem _ hkw)
      rcases mem_mulPower hkw with h | rfl | ⟨h, -⟩
      · exact ha kw h
      · exact hb _ List.mem_cons_self
      · rw [h]
        exact hb _ List.mem_cons_self

theorem Sound.multiply (ha : Sound J a) (hb : Sound J b) :
    Sound J (Indeterminates.multiply J a b) where
  keys kw hkw := by
    have hperm := List.perm_insertionSort (fun x y : Expr × ℤ => keyBefore J x.1 y.1)
      (b.foldl (fun res kw => mulPower res kw.1 kw.2) a)
    exact keys_foldl_mulPower ha.keys hb.keys kw (hperm.mem_iff.mp hkw)
  sorted := List.pairwise_insertionSort _ _

/-- Multiplying by a constant leaves the keys as they are. -/
theorem Sound.multiply_nil (ha : Sound J a) : Indeterminates.multiply J a [] = a :=
  ha.sorted.insertionSort_eq

theorem Sound.reciprocal (ha : Sound J a) : Sound J a.reciprocal where
  keys kw hkw := by
    obtain ⟨x, hx, rfl⟩ := List.mem_map.mp hkw
    exact ha.keys x hx
  sorted := List.pairwise_map.mpr ha.sorted

theorem Proper.multiply (ha : Proper J ρ a) (hb : Proper J ρ b) :
    Proper J ρ (multiply J a b) ∧ value ρ (multiply J a b) = value ρ a * value ρ b := by
  obtain ⟨hgood, hvalue⟩ := foldl_mulPower ha.power hb.power
  unfold Indeterminates.multiply
  have hperm := List.perm_insertionSort (fun x y : Expr × ℤ => keyBefore J x.1 y.1)
    (b.foldl (fun res kw => mulPower res kw.1 kw.2) a)
  have hpower := fun kw hkw => hgood kw (hperm.mem_iff.mp hkw)
  refine ⟨⟨fun kw hkw => (hpower kw hkw).1, fun kw hkw => (hpower kw hkw).2.1,
    fun kw hkw => (hpower kw hkw).2.2, List.pairwise_insertionSort _ _⟩, ?_⟩
  rw [← hvalue]
  exact (hperm.map _).prod_eq


theorem value_reciprocal (a : Indeterminates) : value ρ a.reciprocal = (value ρ a)⁻¹ := by
  induction a with
  | nil => simp [reciprocal, value]
  | cons x a ih =>
      show value ρ ((x.1, -x.2) :: reciprocal a) = _
      rw [value_cons, ih, value_cons, mul_inv, zpow_neg]

/-- The keys of a product that is not zero are not zero. -/
theorem Proper.ne_zero_of_value (ha : Proper J ρ a) (h : value ρ a ≠ 0) :
    ∀ kw ∈ a, ρ kw.1 ≠ 0 := by
  intro kw hkw hzero
  apply h
  apply List.prod_eq_zero_iff.mpr
  exact List.mem_map.mpr ⟨kw, hkw, by rw [hzero, zero_zpow _ (ha.exponents kw hkw)]⟩

theorem Proper.reciprocal (ha : Proper J ρ a) (h : ∀ kw ∈ a, ρ kw.1 ≠ 0) :
    Proper J ρ a.reciprocal where
  params kw hkw := by
    obtain ⟨x, hx, rfl⟩ := List.mem_map.mp hkw
    exact ha.params x hx
  exponents kw hkw := by
    obtain ⟨x, hx, rfl⟩ := List.mem_map.mp hkw
    exact neg_ne_zero.mpr (ha.exponents x hx)
  nonzero kw hkw _ := by
    obtain ⟨x, hx, rfl⟩ := List.mem_map.mp hkw
    exact h x hx
  sorted := List.pairwise_map.mpr ha.sorted

end Indeterminates

end GenieAcs
