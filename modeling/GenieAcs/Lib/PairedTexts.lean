import Mathlib.Data.List.Infix
import Mathlib.Data.Nat.Bits
import Mathlib.Tactic.Common

/-!
# Texts in pairs

A text whose units stand in pairs, with a separator between one pair and the
next, and patterns of parts with anything between them. A part that is written in
pairs itself is found where its units are, if it is broken where the text is:
`joined_spaced` tells which patterns match a text in pairs by the units alone.
-/

namespace GenieAcs

namespace PairedText

variable {α : Type} {sep : α} {odd : Bool} {f : ℕ → Bool} {s t u w : List α}
  {parts : List (List α)}

/-- Units in pairs; `odd` if the first unit is the second of its pair. -/
def spaced (sep : α) : Bool → List α → List α
  | _, [] => []
  | _, [c] => [c]
  | false, c :: d :: s => c :: spaced sep true (d :: s)
  | true, c :: d :: s => c :: sep :: spaced sep false (d :: s)

/-- What is behind a unit that was read. -/
def after (sep : α) : Bool → List α → List α
  | false, c :: s => sep :: spaced sep false (c :: s)
  | odd, s => spaced sep odd s

/-- The text has the parts in it, one after the other. -/
def Joined : List (List α) → List α → Prop
  | [], _ => False
  | [p], s => s = p
  | p :: q :: parts, s => ∃ w t, s = p ++ (w ++ t) ∧ Joined (q :: parts) t

/-- The parts are in the units, and part `j` where its pairs are, if it has a pair. -/
def Fits : (ℕ → Bool) → Bool → List (List α) → List α → Prop
  | _, _, [], _ => False
  | f, odd, [p], s => s = p ∧ (2 ≤ p.length → f 0 = odd)
  | f, odd, p :: q :: parts, s => ∃ w t, s = p ++ (w ++ t) ∧ (2 ≤ p.length → f 0 = odd)
      ∧ Fits (fun j => f (j + 1)) (odd ^^ (p ++ w).length.bodd) (q :: parts) t

/-- Part `j` in pairs. -/
def alignAll (sep : α) (f : ℕ → Bool) (parts : List (List α)) : List (List α) :=
  parts.mapIdx fun j p => spaced sep (f j) p

theorem alignAll_cons (p : List α) : alignAll sep f (p :: parts)
    = spaced sep (f 0) p :: alignAll sep (fun j => f (j + 1)) parts :=
  List.mapIdx_cons

/-! ## Reading units -/

theorem spaced_cons (c : α) (s : List α) :
    spaced sep odd (c :: s) = c :: after sep (!odd) s := by
  cases s with
  | nil => cases odd <;> rfl
  | cons d s => cases odd <;> rfl

theorem after_nil : after sep odd [] = [] := by
  cases odd <;> rfl

theorem after_cons_ne {c : α} : after sep odd (c :: s) ≠ [] := by
  cases odd with
  | true =>
      show spaced sep true (c :: s) ≠ []
      rw [spaced_cons]
      exact List.cons_ne_nil _ _
  | false => exact List.cons_ne_nil _ _

theorem spaced_eq_nil : spaced sep odd s = [] ↔ s = [] := by
  cases s with
  | nil => exact iff_of_true (by cases odd <;> rfl) rfl
  | cons c s => rw [spaced_cons]; simp

/-- Behind a unit there is a text in pairs, maybe with a separator in front. -/
theorem after_eq (odd : Bool) (s : List α) :
    after sep odd s = spaced sep odd s ∨ (after sep odd s = sep :: spaced sep odd s ∧ s ≠ []) := by
  cases odd with
  | true => exact Or.inl rfl
  | false =>
      cases s with
      | nil => exact Or.inl rfl
      | cons c s => exact Or.inr ⟨rfl, List.cons_ne_nil c s⟩

theorem mem_spaced {c : α} (hc : c ∈ spaced sep odd s) : c = sep ∨ c ∈ s := by
  induction s generalizing odd with
  | nil =>
      rw [spaced_eq_nil.mpr rfl] at hc
      exact absurd hc List.not_mem_nil
  | cons d s ih =>
      rw [spaced_cons] at hc
      rcases List.mem_cons.mp hc with rfl | hc
      · exact Or.inr List.mem_cons_self
      · have hrest : c = sep ∨ c ∈ s := by
          rcases after_eq (!odd) s with h | ⟨h, -⟩
          · exact ih (h ▸ hc)
          · rw [h] at hc
            exact (List.mem_cons.mp hc).elim Or.inl ih
        exact hrest.imp_right (List.mem_cons_of_mem d)

/-- The units of a text in pairs. -/
theorem filter_spaced [DecidableEq α] (h : sep ∉ s) :
    (spaced sep odd s).filter (· ≠ sep) = s := by
  induction s generalizing odd with
  | nil =>
      rw [spaced_eq_nil.mpr rfl]
      rfl
  | cons c s ih =>
      rw [List.mem_cons, not_or] at h
      have hrest : (after sep (!odd) s).filter (· ≠ sep) = s := by
        rcases after_eq (!odd) s with heq | ⟨heq, -⟩
        · rw [heq, ih h.2]
        · rw [heq, List.filter_cons_of_neg (by simp), ih h.2]
      rw [spaced_cons, List.filter_cons_of_pos (by simpa using Ne.symm h.1), hrest]

/-- Units in front: what is left begins behind the last of them. -/
theorem spaced_append (hu : u ≠ []) (t : List α) :
    spaced sep odd (u ++ t) = spaced sep odd u ++ after sep (odd ^^ u.length.bodd) t := by
  induction u generalizing odd with
  | nil => exact absurd rfl hu
  | cons c u ih =>
      rw [List.cons_append, spaced_cons, spaced_cons, List.length_cons, Nat.bodd_succ]
      cases u with
      | nil =>
          rw [after_nil]
          simp
      | cons d u =>
          have hrest : ∀ odd : Bool, spaced sep odd (d :: (u ++ t)) = spaced sep odd (d :: u)
              ++ after sep (odd ^^ (d :: u).length.bodd) t := fun odd =>
            ih (List.cons_ne_nil d u)
          cases odd with
          | false =>
              show c :: spaced sep true (d :: (u ++ t)) = c :: spaced sep true (d :: u) ++ _
              rw [hrest]
              simp
          | true =>
              show c :: sep :: spaced sep false (d :: (u ++ t))
                = c :: sep :: spaced sep false (d :: u) ++ _
              rw [hrest]
              simp

/-- A part in pairs at the front of a text in pairs. -/
theorem spaced_front {p : List α} {k : Bool} (hp : p ≠ []) (hsepp : sep ∉ p) (hsep : sep ∉ s)
    (h : spaced sep odd s = spaced sep k p ++ w) : ∃ t, s = p ++ t ∧ (2 ≤ p.length → k = odd)
      ∧ w = after sep (odd ^^ p.length.bodd) t := by
  induction p generalizing odd k s with
  | nil => exact absurd rfl hp
  | cons c p ih =>
      rw [List.mem_cons, not_or] at hsepp
      cases s with
      | nil =>
          rw [spaced_eq_nil.mpr rfl, spaced_cons] at h
          cases h
      | cons c' s =>
          rw [spaced_cons, spaced_cons, List.cons_append] at h
          obtain ⟨rfl, hrest⟩ := List.cons.inj h
          rw [List.mem_cons, not_or] at hsep
          cases p with
          | nil =>
              rw [after_nil, List.nil_append] at hrest
              refine ⟨s, rfl, fun hlen => absurd hlen (by simp), ?_⟩
              rw [← hrest]
              simp
          | cons d p =>
              have hd : sep ≠ d := fun heq => hsepp.2 (heq ▸ List.mem_cons_self)
              cases s with
              | nil =>
                  rw [after_nil] at hrest
                  exact absurd (List.append_eq_nil_iff.mp hrest.symm).1 after_cons_ne
              | cons e s =>
                  have he : sep ≠ e := fun heq => hsep.2 (heq ▸ List.mem_cons_self)
                  -- both are broken behind the unit, or neither is
                  have hkind : k = odd ∧ spaced sep (!odd) (e :: s)
                      = spaced sep (!k) (d :: p) ++ w := by
                    cases odd <;> cases k
                    · exact ⟨rfl, hrest⟩
                    · change spaced sep true (e :: s) = sep :: _ at hrest
                      rw [spaced_cons] at hrest
                      exact absurd (List.cons.inj hrest).1.symm he
                    · change sep :: _ = spaced sep true (d :: p) ++ w at hrest
                      rw [spaced_cons d p] at hrest
                      exact absurd (List.cons.inj hrest).1 hd
                    · exact ⟨rfl, (List.cons.inj hrest).2⟩
                  obtain ⟨rfl, hrest'⟩ := hkind
                  obtain ⟨t, htail, -, rfl⟩ := ih (List.cons_ne_nil d p) hsepp.2 hsep.2 hrest'
                  refine ⟨t, by rw [htail]; rfl, fun _ => rfl, ?_⟩
                  rw [List.length_cons, Nat.bodd_succ]
                  simp

/-! ## What follows a part -/

/-- The end of a text in pairs is in pairs, maybe with a separator in front. -/
theorem spaced_suffix {x : List α} (h : spaced sep odd s = w ++ x) : ∃ u t, s = u ++ t
    ∧ (x = spaced sep (odd ^^ u.length.bodd) t
      ∨ x = sep :: spaced sep (odd ^^ u.length.bodd) t) := by
  induction s generalizing odd w with
  | nil =>
      rw [spaced_eq_nil.mpr rfl] at h
      refine ⟨[], [], rfl, Or.inl ?_⟩
      rw [(List.append_eq_nil_iff.mp h.symm).2]
      exact (spaced_eq_nil.mpr rfl).symm
  | cons c s ih =>
      cases w with
      | nil => exact ⟨[], c :: s, rfl, Or.inl (by rw [← List.nil_append x, ← h]; simp)⟩
      | cons d w =>
          rw [spaced_cons] at h
          have hrest : after sep (!odd) s = w ++ x := (List.cons.inj h).2
          have hphase : ∀ u : List α, ((!odd) ^^ u.length.bodd) = (odd ^^ (c :: u).length.bodd) := by
            intro u
            rw [List.length_cons, Nat.bodd_succ]
            simp
          rcases after_eq (!odd) s with hplain | ⟨hsep, -⟩
          · obtain ⟨u, t, rfl, hx⟩ := ih (hplain.symm.trans hrest)
            exact ⟨c :: u, t, rfl, hphase u ▸ hx⟩
          · rw [hsep] at hrest
            cases w with
            | nil =>
                refine ⟨[c], s, rfl, Or.inr ?_⟩
                rw [← hphase [], ← List.nil_append x, ← hrest]
                simp
            | cons e w =>
                obtain ⟨u, t, rfl, hx⟩ := ih (List.cons.inj hrest).2
                exact ⟨c :: u, t, rfl, hphase u ▸ hx⟩

/-- Parts that do not begin with a separator do not need one in front. -/
theorem Joined.unsep {parts : List (List α)} (hparts : ∀ p ∈ parts, p.head? ≠ some sep)
    (h : Joined parts (sep :: s)) : Joined parts s := by
  induction parts with
  | nil => exact h
  | cons p parts ih =>
      obtain ⟨hp, hrest⟩ := List.forall_mem_cons.mp hparts
      cases parts with
      | nil => exact absurd (congrArg List.head? h).symm hp
      | cons q parts =>
          obtain ⟨w, t, heq, ht⟩ := h
          cases p with
          | cons c p => exact absurd (congrArg List.head? heq).symm hp
          | nil =>
              cases w with
              | cons d w => exact ⟨w, t, (List.cons.inj heq).2, ht⟩
              | nil =>
                  obtain rfl : sep :: s = t := heq
                  exact ⟨[], s, rfl, ih hrest ht⟩

/-- Parts of one unit are written alike in both ways. -/
theorem spaced_short {p : List α} {k : Bool} (h : 2 ≤ p.length → k = odd) :
    spaced sep k p = spaced sep odd p := by
  match p with
  | [] => rw [spaced_eq_nil.mpr rfl, spaced_eq_nil.mpr rfl]
  | [c] => rw [spaced_cons, spaced_cons, after_nil, after_nil]
  | c :: d :: p => rw [h (by simp)]

theorem spaced_split {p x : List α} {k : Bool} (hp : sep ∉ p) (hs : sep ∉ s)
    (h : spaced sep odd s = spaced sep k p ++ (w ++ x)) : ∃ u t, s = p ++ (u ++ t)
      ∧ (2 ≤ p.length → k = odd) ∧ (x = spaced sep (odd ^^ (p ++ u).length.bodd) t
        ∨ x = sep :: spaced sep (odd ^^ (p ++ u).length.bodd) t) := by
  by_cases hnil : p = []
  · subst hnil
    rw [spaced_eq_nil.mpr rfl, List.nil_append] at h
    obtain ⟨u, t, rfl, hx⟩ := spaced_suffix h
    exact ⟨u, t, rfl, fun hlen => absurd hlen (by simp), hx⟩
  · obtain ⟨s', rfl, hk, hrest⟩ := spaced_front hnil hp hs h
    have hphase : ∀ u : List α, ((odd ^^ p.length.bodd) ^^ u.length.bodd)
        = (odd ^^ (p ++ u).length.bodd) := by
      intro u
      rw [List.length_append, Nat.bodd_add, Bool.xor_assoc]
    rcases after_eq (odd ^^ p.length.bodd) s' with hplain | ⟨hsep, -⟩
    · obtain ⟨u, t, rfl, hx⟩ := spaced_suffix (hplain.symm.trans hrest.symm)
      exact ⟨u, t, rfl, hk, hphase u ▸ hx⟩
    · rw [hsep] at hrest
      cases w with
      | nil => exact ⟨[], s', rfl, hk, Or.inr (by rw [← hphase []]; simpa using hrest)⟩
      | cons e w =>
          obtain ⟨u, t, rfl, hx⟩ := spaced_suffix (List.cons.inj hrest).2.symm
          exact ⟨u, t, rfl, hk, hphase u ▸ hx⟩

theorem spaced_join {p : List α} {k : Bool} (hk : 2 ≤ p.length → k = odd) (u t : List α) :
    ∃ w, spaced sep odd (p ++ (u ++ t))
      = spaced sep k p ++ (w ++ spaced sep (odd ^^ (p ++ u).length.bodd) t) := by
  have htail : ∀ {odd : Bool} (u : List α), ∃ w, spaced sep odd (u ++ t)
      = w ++ spaced sep (odd ^^ u.length.bodd) t := by
    intro odd u
    by_cases hu : u = []
    · subst hu
      exact ⟨[], by simp⟩
    · rw [spaced_append hu]
      rcases after_eq (odd ^^ u.length.bodd) t with hplain | ⟨hsep, -⟩
      · exact ⟨spaced sep odd u, by rw [hplain]⟩
      · exact ⟨spaced sep odd u ++ [sep], by rw [hsep, List.append_assoc]; rfl⟩
  by_cases hp : p = []
  · subst hp
    rw [spaced_eq_nil.mpr rfl]
    exact htail u
  · rw [spaced_append hp, spaced_short hk, List.length_append, Nat.bodd_add, ← Bool.xor_assoc]
    rcases after_eq (odd ^^ p.length.bodd) (u ++ t) with hplain | ⟨hsep, -⟩
    · obtain ⟨w, hw⟩ := htail u
      exact ⟨w, by rw [hplain, hw]⟩
    · obtain ⟨w, hw⟩ := htail u
      exact ⟨sep :: w, by rw [hsep, hw]; rfl⟩

/-! ## Parts in pairs -/

theorem head_spaced {p : List α} (hp : sep ∉ p) : (spaced sep odd p).head? ≠ some sep := by
  cases p with
  | nil =>
      rw [spaced_eq_nil.mpr rfl]
      exact fun h => nomatch h
  | cons c p =>
      rw [spaced_cons]
      exact fun h => hp (Option.some.inj h ▸ List.mem_cons_self)

theorem head_alignAll (hparts : ∀ p ∈ parts, sep ∉ p) :
    ∀ p ∈ alignAll sep f parts, p.head? ≠ some sep := by
  intro p hp
  obtain ⟨j, hj, rfl⟩ := List.mem_mapIdx.mp hp
  exact head_spaced (hparts _ (List.getElem_mem hj))

/-- Parts in pairs are in a text in pairs just where the parts fit the units. -/
theorem joined_spaced (hparts : ∀ p ∈ parts, sep ∉ p) (hs : sep ∉ s) :
    Joined (alignAll sep f parts) (spaced sep odd s) ↔ Fits f odd parts s := by
  induction parts generalizing f odd s with
  | nil => exact Iff.rfl
  | cons p parts ih =>
      obtain ⟨hp, hrest⟩ := List.forall_mem_cons.mp hparts
      rw [alignAll_cons]
      cases parts with
      | nil =>
          show spaced sep odd s = spaced sep (f 0) p ↔ _
          constructor
          · intro h
            by_cases hnil : p = []
            · subst hnil
              rw [@spaced_eq_nil _ _ _ ([] : List α) |>.mpr rfl, spaced_eq_nil] at h
              exact ⟨h, fun hlen => absurd hlen (by simp)⟩
            · rw [← List.append_nil (spaced sep (f 0) p)] at h
              obtain ⟨t, rfl, hk, ht⟩ := spaced_front hnil hp hs h
              cases t with
              | nil => exact ⟨List.append_nil p, hk⟩
              | cons c t => exact absurd ht.symm after_cons_ne
          · rintro ⟨rfl, hk⟩
            exact (spaced_short hk).symm
      | cons q parts =>
          have hheads := @head_alignAll _ sep (fun j => f (j + 1)) _ hrest
          have hfits : ∀ {odd : Bool} {t : List α}, sep ∉ t →
              (Joined (alignAll sep (fun j => f (j + 1)) (q :: parts)) (spaced sep odd t)
                ↔ Fits (fun j => f (j + 1)) odd (q :: parts) t) := fun ht => ih hrest ht
          rw [alignAll_cons] at hheads ⊢
          constructor
          · rintro ⟨w, x, heq, hx⟩
            obtain ⟨u, t, rfl, hk, hx'⟩ := spaced_split hp hs heq
            have ht : sep ∉ t := fun h =>
              hs (List.mem_append_right _ (List.mem_append_right _ h))
            refine ⟨u, t, rfl, hk, (hfits ht).mp ?_⟩
            rw [alignAll_cons]
            rcases hx' with rfl | rfl
            · exact hx
            · exact hx.unsep hheads
          · rintro ⟨u, t, rfl, hk, ht⟩
            have hsep : sep ∉ t := fun h =>
              hs (List.mem_append_right _ (List.mem_append_right _ h))
            obtain ⟨w, hw⟩ := spaced_join hk u t
            have hjoined := (hfits hsep).mpr ht
            rw [alignAll_cons] at hjoined
            exact ⟨w, _, hw, hjoined⟩

/-! ## Parts that fit -/

theorem Fits.joined (h : Fits f odd parts s) : Joined parts s := by
  induction parts generalizing f odd s with
  | nil => exact h
  | cons p parts ih =>
      cases parts with
      | nil => exact h.1
      | cons q parts =>
          obtain ⟨w, t, rfl, -, ht⟩ := h
          exact ⟨w, t, rfl, ih ht⟩

/-- Each part is written as it stands. -/
theorem Joined.exists_fits (h : Joined parts s) (odd : Bool) : ∃ f, Fits f odd parts s := by
  induction parts generalizing odd s with
  | nil => exact h.elim
  | cons p parts ih =>
      cases parts with
      | nil => exact ⟨fun _ => odd, h, fun _ => rfl⟩
      | cons q parts =>
          obtain ⟨w, t, rfl, ht⟩ := h
          obtain ⟨f, hf⟩ := ih ht (odd ^^ (p ++ w).length.bodd)
          exact ⟨fun j => j.casesOn odd f, w, t, rfl, fun _ => rfl, hf⟩

/-- Where a part with a pair is. -/
theorem Fits.part (h : Fits f odd parts s) {j : ℕ} {p : List α} (hp : parts[j]? = some p)
    (hlen : 2 ≤ p.length) : ∃ before after, s = before ++ (p ++ after)
      ∧ f j = (odd ^^ before.length.bodd) := by
  induction parts generalizing f odd s j with
  | nil => cases hp
  | cons q parts ih =>
      cases parts with
      | nil =>
          obtain ⟨rfl, hodd⟩ := h
          cases j with
          | succ j => cases hp
          | zero =>
              cases hp
              exact ⟨[], [], by simp, by simpa using hodd hlen⟩
      | cons q' parts =>
          obtain ⟨w, t, rfl, hodd, ht⟩ := h
          cases j with
          | zero =>
              cases hp
              exact ⟨[], w ++ t, rfl, by simpa using hodd hlen⟩
          | succ j =>
              obtain ⟨before, after, rfl, hj⟩ := ih ht hp
              refine ⟨q ++ w ++ before, after, by simp, ?_⟩
              rw [hj, @List.length_append _ (q ++ w), Nat.bodd_add, Bool.xor_assoc]

theorem Fits.congr {g : ℕ → Bool} (h : Fits f odd parts s) (hfg : ∀ j < parts.length, f j = g j) :
    Fits g odd parts s := by
  induction parts generalizing f g odd s with
  | nil => exact h
  | cons p parts ih =>
      have h0 : f 0 = g 0 := hfg 0 (Nat.succ_pos _)
      cases parts with
      | nil => exact ⟨h.1, fun hlen => h0 ▸ h.2 hlen⟩
      | cons q parts =>
          obtain ⟨w, t, rfl, hk, ht⟩ := h
          exact ⟨w, t, rfl, fun hlen => h0 ▸ hk hlen,
            ih ht fun j hj => hfg (j + 1) (Nat.succ_lt_succ hj)⟩

/-- Without separators no more than one pair is in one piece. -/
theorem length_le_two {p : List α} {w : List α} (hp : sep ∉ p) (hs : sep ∉ s)
    (h : spaced sep odd s = u ++ (p ++ w)) : p.length ≤ 2 := by
  match p with
  | [] => exact Nat.zero_le 2
  | [_] => exact Nat.le_succ 1
  | [_, _] => exact le_rfl
  | a :: b :: c :: p =>
      exfalso
      have ha : a ≠ sep := fun heq => hp (heq ▸ List.mem_cons_self)
      have hb : b ≠ sep := fun heq => hp (by simp [heq])
      have hc : c ≠ sep := fun heq => hp (by simp [heq])
      obtain ⟨v, t, rfl, heq | heq⟩ := spaced_suffix h
      · match t with
        | [] =>
            rw [spaced_eq_nil.mpr rfl] at heq
            cases heq
        | [_] =>
            rw [spaced_cons, after_nil] at heq
            cases heq
        | x :: y :: t =>
            cases hk : odd ^^ v.length.bodd with
            | true =>
                rw [hk] at heq
                exact hb (List.cons.inj (List.cons.inj heq).2).1
            | false =>
                rw [hk] at heq
                have htail : b :: c :: (p ++ w) = spaced sep true (y :: t) := (List.cons.inj heq).2
                cases t with
                | nil => cases htail
                | cons z t => exact hc (List.cons.inj (List.cons.inj htail).2).1
      · exact ha (List.cons.inj heq).1

theorem alignAll_short (h : ∀ p ∈ parts, p.length ≤ 2) :
    alignAll sep (fun _ => false) parts = parts := by
  induction parts with
  | nil => rfl
  | cons p parts ih =>
      obtain ⟨hp, hrest⟩ := List.forall_mem_cons.mp h
      have hpair : spaced sep false p = p := by
        match p, hp with
        | [], _ => rfl
        | [_], _ => rfl
        | [_, _], _ => rfl
      rw [alignAll_cons, hpair, ih hrest]

/-- Parts found as they stand have no separator in their pairs. -/
theorem Joined.alignAll_eq (hparts : ∀ p ∈ parts, sep ∉ p) (hs : sep ∉ s)
    (h : Joined parts (spaced sep odd s)) : alignAll sep (fun _ => false) parts = parts := by
  have hshort : ∀ {parts : List (List α)} {u x : List α}, (∀ p ∈ parts, sep ∉ p) →
      spaced sep odd s = u ++ x → Joined parts x → ∀ p ∈ parts, p.length ≤ 2 := by
    intro parts
    induction parts with
    | nil => exact fun _ _ _ p hp => absurd hp List.not_mem_nil
    | cons p parts ih =>
        intro u x hparts hx h
        obtain ⟨hp, hrest⟩ := List.forall_mem_cons.mp hparts
        refine List.forall_mem_cons.mpr ?_
        cases parts with
        | nil =>
            obtain rfl : x = p := h
            rw [← List.append_nil x] at hx
            exact ⟨length_le_two hp hs hx, fun q hq => absurd hq List.not_mem_nil⟩
        | cons q parts =>
            obtain ⟨w, t, rfl, ht⟩ := h
            refine ⟨length_le_two hp hs hx, @ih (u ++ p ++ w) t hrest ?_ ht⟩
            rw [hx, List.append_assoc, List.append_assoc]
  exact alignAll_short (hshort hparts (List.nil_append _).symm h)

theorem map_spaced {g : α → α} (hg : g sep = sep) (odd : Bool) (s : List α) :
    (spaced sep odd s).map g = spaced sep odd (s.map g) := by
  induction s generalizing odd with
  | nil => cases odd <;> rfl
  | cons c s ih =>
      rw [spaced_cons, List.map_cons, List.map_cons, spaced_cons]
      cases s with
      | nil =>
          rw [after_nil, List.map_nil, after_nil]
      | cons d s =>
          cases odd with
          | true =>
              show g c :: g sep :: (spaced sep false (d :: s)).map g = _
              rw [ih, hg]
              rfl
          | false =>
              show g c :: (spaced sep true (d :: s)).map g = _
              rw [ih]
              rfl

end PairedText

end GenieAcs
