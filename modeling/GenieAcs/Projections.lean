import Mathlib.Data.Finset.Max
import Mathlib.Data.List.Lex
import Mathlib.Data.List.Sort
import GenieAcs.Like

/-!
# Projections without overlaps

`optimizeProjection` sorts the paths of a projection and drops each path that lies
below the last one it kept. Strings that continue a path with a unit before the dot
sort between the path and what lies below it, and hide the path from there on. The
paths kept are those below no other path just when no path is hidden
(`optimizeProjection_iff`).
-/

namespace GenieAcs

/-- The keys of a projection; every value is 1. -/
structure Projection where
  keys : List JsString
  nodup : keys.Nodup

namespace Projection

/-- `b` starts with `a`, with a dot on either side of the cut. -/
def Overlaps (a b : JsString) : Prop :=
  a <+: b ∧ (b[a.length]? = some '.'.toNat ∨ b[a.length - 1]? = some '.'.toNat)

instance (a b : JsString) : Decidable (Overlaps a b) := inferInstanceAs (Decidable (_ ∧ _))

/-- The loop over the sorted keys; `a` is the last key that was not deleted. -/
def optimizeLoop (obj : List JsString) (a : JsString) : List JsString → List JsString
  | [] => obj
  | b :: keys =>
      if Overlaps a b then optimizeLoop (obj.erase b) a keys else optimizeLoop obj b keys

/-- The keys that `optimizeLoop` does not delete. -/
def keptFrom (a : JsString) : List JsString → List JsString
  | [] => []
  | b :: keys => if Overlaps a b then keptFrom a keys else b :: keptFrom b keys

def optimizeKeys (obj : List JsString) : List JsString :=
  if [] ∈ obj then [[]]
  else
    match obj.insertionSort (· ≤ ·) with
    | [] => obj
    | a :: keys => optimizeLoop obj a keys

theorem keptFrom_subset {a k : JsString} {keys : List JsString} (h : k ∈ keptFrom a keys) :
    k ∈ keys := by
  induction keys generalizing a with
  | nil => exact h
  | cons b keys ih =>
      rw [keptFrom] at h
      split_ifs at h
      · exact List.mem_cons_of_mem _ (ih h)
      · exact (List.mem_cons.mp h).elim (fun h => h ▸ List.mem_cons_self ..)
          fun h => List.mem_cons_of_mem _ (ih h)

theorem optimizeLoop_sublist (obj : List JsString) (a : JsString) (keys : List JsString) :
    (optimizeLoop obj a keys).Sublist obj := by
  induction keys generalizing obj a with
  | nil => exact List.Sublist.refl _
  | cons b keys ih =>
      rw [optimizeLoop]
      split_ifs
      · exact (ih _ _).trans List.erase_sublist
      · exact ih _ _

theorem optimizeKeys_nodup {obj : List JsString} (h : obj.Nodup) : (optimizeKeys obj).Nodup := by
  unfold optimizeKeys
  split_ifs
  · exact List.nodup_singleton _
  · split
    · exact h
    · exact h.sublist (optimizeLoop_sublist ..)

def optimizeProjection (obj : Projection) : Projection :=
  ⟨optimizeKeys obj.keys, optimizeKeys_nodup obj.nodup⟩

/-! ## Paths below paths -/

/-- `b` lies below `a`. -/
def Below (b a : JsString) : Prop := ∃ rest, b = a ++ '.'.toNat :: rest

/-- A key whose segments are not empty. -/
def DottedPath (k : JsString) : Prop := [] ∉ k.splitOn '.'.toNat

instance (k : JsString) : Decidable (DottedPath k) := inferInstanceAs (Decidable (_ ∉ _))

theorem DottedPath.last {k : JsString} (h : DottedPath k) : ¬ ∃ s, k = s ++ ['.'.toNat] := by
  rintro ⟨s, rfl⟩
  refine h ?_
  rw [List.splitOn, List.splitOnP_append_cons s [] (by decide)]
  exact List.mem_append_right _ (List.mem_singleton_self _)

theorem DottedPath.ne_nil {k : JsString} (h : DottedPath k) : k ≠ [] := by
  rintro rfl
  exact h (List.mem_singleton_self _)

theorem overlaps_iff {a b : JsString} (ha : DottedPath a) (hne : a ≠ b) :
    Overlaps a b ↔ Below b a := by
  constructor
  · rintro ⟨⟨t, rfl⟩, hdot⟩
    cases t with
    | nil => exact absurd (List.append_nil a).symm hne
    | cons x t =>
        rcases hdot with hdot | hdot
        · rw [List.getElem?_append_right le_rfl, Nat.sub_self] at hdot
          cases hdot
          exact ⟨t, rfl⟩
        · obtain ⟨s, y, rfl⟩ := List.eq_nil_or_concat' a |>.resolve_left ha.ne_nil
          rw [List.length_append, List.length_singleton, Nat.add_sub_cancel, List.append_assoc,
            List.getElem?_append_right le_rfl, Nat.sub_self] at hdot
          cases hdot
          exact absurd ⟨s, rfl⟩ ha.last
  · rintro ⟨rest, rfl⟩
    refine ⟨List.prefix_append .., .inl ?_⟩
    rw [List.getElem?_append_right le_rfl, Nat.sub_self]
    rfl

theorem lt_append_cons (a : JsString) (x : Nat) (rest : JsString) : a < a ++ x :: rest := by
  have h : a ++ [] < a ++ x :: rest := List.append_left_lt (List.nil_lt_cons x rest)
  rwa [List.append_nil] at h

theorem Below.lt {a b : JsString} (h : Below b a) : a < b := by
  obtain ⟨rest, rfl⟩ := h
  exact lt_append_cons a _ rest

theorem Below.trans {a b c : JsString} (hcb : Below c b) (hba : Below b a) : Below c a := by
  obtain ⟨s, rfl⟩ := hba
  obtain ⟨t, rfl⟩ := hcb
  exact ⟨s ++ '.'.toNat :: t, by rw [List.append_assoc, List.cons_append]⟩

/-- Of two keys with one key below them, one lies below the other. -/
theorem Below.comparable {a b c : JsString} (ha : Below c a) (hb : Below c b) :
    a = b ∨ Below a b ∨ Below b a := by
  obtain ⟨s, rfl⟩ := ha
  obtain ⟨t, ht⟩ := hb
  rcases List.append_eq_append_iff.mp ht with ⟨u, rfl, hu⟩ | ⟨u, rfl, hu⟩
  · cases u with
    | nil => exact .inl (List.append_nil a).symm
    | cons x u =>
        cases hu
        exact .inr (.inr ⟨u, rfl⟩)
  · cases u with
    | nil => exact .inl (List.append_nil b)
    | cons x u =>
        cases hu
        exact .inr (.inl ⟨u, rfl⟩)

/-- What sorts between a path and a key below it continues the path. -/
theorem Below.between {a b c : JsString} (h : Below b a) (hac : a < c) (hcb : c < b) :
    Below c a ∨ ∃ x rest, c = a ++ x :: rest ∧ x < '.'.toNat := by
  obtain ⟨t, rfl⟩ := h
  induction a generalizing c with
  | nil =>
      cases c with
      | nil => exact absurd hac (lt_irrefl _)
      | cons x c =>
          rcases List.cons_lt_cons_iff.mp hcb with hx | ⟨rfl, -⟩
          · exact .inr ⟨x, c, rfl, hx⟩
          · exact .inl ⟨c, rfl⟩
  | cons y a ih =>
      cases c with
      | nil => exact absurd hac (List.not_lt_nil _)
      | cons x c =>
          rw [List.cons_append] at hcb
          rcases List.cons_lt_cons_iff.mp hac with hx | ⟨rfl, hac'⟩
          · rcases List.cons_lt_cons_iff.mp hcb with hy | ⟨rfl, -⟩
            · exact absurd hx (lt_asymm hy)
            · exact absurd hx (lt_irrefl _)
          · have hcb := (List.cons_lt_cons_iff.mp hcb).resolve_left (lt_irrefl _)
            rcases ih hac' hcb.2 with ⟨u, rfl⟩ | ⟨x, u, rfl, hx⟩
            · exact .inl ⟨u, rfl⟩
            · exact .inr ⟨x, u, rfl, hx⟩

/-! ## What is kept -/

theorem mem_optimizeLoop {obj : List JsString} {a k : JsString} {keys : List JsString}
    (hobj : obj.Nodup) (hkeys : keys.Nodup) :
    k ∈ optimizeLoop obj a keys ↔ k ∈ obj ∧ (k ∈ keys → k ∈ keptFrom a keys) := by
  induction keys generalizing obj a with
  | nil => exact ⟨fun h => ⟨h, fun h => nomatch h⟩, And.left⟩
  | cons b keys ih =>
      obtain ⟨hb, hkeys⟩ := List.nodup_cons.mp hkeys
      rw [optimizeLoop, keptFrom]
      split_ifs with hover
      · rw [ih (hobj.erase b) hkeys, hobj.mem_erase_iff, List.mem_cons]
        constructor
        · rintro ⟨⟨hne, hk⟩, hkept⟩
          exact ⟨hk, fun h => hkept (h.resolve_left hne)⟩
        · rintro ⟨hk, hkept⟩
          refine ⟨⟨?_, hk⟩, fun h => hkept (.inr h)⟩
          rintro rfl
          exact hb (keptFrom_subset (hkept (.inl rfl)))
      · rw [ih hobj hkeys, List.mem_cons, List.mem_cons]
        constructor
        · rintro ⟨hk, hkept⟩
          exact ⟨hk, fun h => h.imp_right hkept⟩
        · rintro ⟨hk, hkept⟩
          exact ⟨hk, fun h => (hkept (.inr h)).resolve_left fun heq => hb (heq ▸ h)⟩

/-- Whether a key is kept is decided by the last key kept before it. -/
theorem exists_last_kept {a b : JsString} {keys : List JsString}
    (hsorted : (a :: keys).Pairwise (· < ·)) (hb : b ∈ keys) :
    ∃ q ∈ a :: keptFrom a keys, q < b ∧ (∀ k ∈ a :: keptFrom a keys, k < b → k ≤ q)
      ∧ (b ∈ keptFrom a keys ↔ ¬ Overlaps q b) := by
  induction keys generalizing a with
  | nil => exact nomatch hb
  | cons c keys ih =>
      obtain ⟨ha, hrest⟩ := List.pairwise_cons.mp hsorted
      obtain ⟨hc, hkeys⟩ := List.pairwise_cons.mp hrest
      have hac := ha c (List.mem_cons_self ..)
      rw [keptFrom]
      rcases List.mem_cons.mp hb with rfl | hb'
      · have hlater : ∀ k ∈ keys, ¬ k < b := fun k hk => (hc k hk).le.not_gt
        refine ⟨a, List.mem_cons_self .., hac, ?_, ?_⟩
        · intro k hk hkb
          rcases List.mem_cons.mp hk with rfl | hk
          · exact le_rfl
          · split_ifs at hk
            · exact absurd hkb (hlater k (keptFrom_subset hk))
            · rcases List.mem_cons.mp hk with rfl | hk
              · exact absurd hkb (lt_irrefl _)
              · exact absurd hkb (hlater k (keptFrom_subset hk))
        · split_ifs with hover
          · refine iff_of_false (fun h => ?_) (not_not.mpr hover)
            exact lt_irrefl b (hc b (keptFrom_subset h))
          · exact iff_of_true (List.mem_cons_self ..) hover
      · split_ifs with hover
        · exact ih (List.pairwise_cons.mpr ⟨fun k hk => ha k (List.mem_cons_of_mem _ hk), hkeys⟩) hb'
        · obtain ⟨q, hq, hqb, hlast, hiff⟩ := ih hrest hb'
          refine ⟨q, List.mem_cons_of_mem _ hq, hqb, ?_, ?_⟩
          · intro k hk hkb
            rcases List.mem_cons.mp hk with rfl | hk
            · exact hac.le.trans (hlast c (List.mem_cons_self ..) (hc b hb'))
            · exact hlast k hk hkb
          · rw [List.mem_cons, ← hiff, or_iff_right]
            rintro rfl
            exact lt_irrefl b (hc b hb')

/-- A key is kept unless it overlaps the last key kept before it. -/
theorem mem_optimizeKeys {obj : List JsString} (hobj : obj.Nodup) (hne : [] ∉ obj) {b : JsString} :
    b ∈ optimizeKeys obj ↔ b ∈ obj ∧ ∀ q ∈ optimizeKeys obj, q < b →
      (∀ k ∈ optimizeKeys obj, k < b → k ≤ q) → ¬ Overlaps q b := by
  have hperm := List.perm_insertionSort (· ≤ ·) obj
  have hsorted := List.pairwise_insertionSort (· ≤ ·) obj
  rw [optimizeKeys, if_neg hne]
  cases hsort : obj.insertionSort (· ≤ ·) with
  | nil =>
      rw [hsort] at hperm
      rw [← List.Perm.nil_eq hperm]
      exact iff_of_false List.not_mem_nil fun h => List.not_mem_nil h.1
  | cons a keys =>
      rw [hsort] at hperm hsorted
      have hnodup := hperm.nodup_iff.mpr hobj
      have hlt : (a :: keys).Pairwise (· < ·) :=
        hsorted.imp₂ (fun _ _ hle hne => lt_of_le_of_ne hle hne) hnodup
      obtain ⟨ha, hkeys⟩ := List.nodup_cons.mp hnodup
      have hmem : ∀ k, k ∈ optimizeLoop obj a keys ↔ k ∈ a :: keptFrom a keys := by
        intro k
        rw [mem_optimizeLoop hobj hkeys, ← hperm.mem_iff, List.mem_cons, List.mem_cons]
        constructor
        · rintro ⟨hk, hkept⟩
          exact hk.imp_right hkept
        · rintro (rfl | hk)
          · exact ⟨.inl rfl, fun h => absurd h ha⟩
          · exact ⟨.inr (keptFrom_subset hk), fun _ => hk⟩
      simp only [hmem]
      constructor
      · intro hb
        refine ⟨hperm.mem_iff.mp ?_, fun q hq hqb hlast hover => ?_⟩
        · exact List.mem_cons.mpr ((List.mem_cons.mp hb).imp_right keptFrom_subset)
        · rcases List.mem_cons.mp hb with rfl | hb
          · rcases List.mem_cons.mp hq with rfl | hq
            · exact lt_irrefl _ hqb
            · exact lt_asymm hqb ((List.pairwise_cons.mp hlt).1 q (keptFrom_subset hq))
          · obtain ⟨r, hr, hrb, hmax, hiff⟩ := exists_last_kept hlt (keptFrom_subset hb)
            obtain rfl := le_antisymm (hmax q hq hqb) (hlast r hr hrb)
            exact hiff.mp hb hover
      · rintro ⟨hb, hlast⟩
        rcases List.mem_cons.mp (hperm.mem_iff.mpr hb) with rfl | hb
        · exact List.mem_cons_self ..
        · obtain ⟨q, hq, hqb, hmax, hiff⟩ := exists_last_kept hlt hb
          exact List.mem_cons_of_mem _ (hiff.mpr (hlast q hq hqb hmax))

/-! ## Paths that are hidden -/

/-- The keys kept are those below no other. -/
structure Separates (keys kept : List JsString) : Prop where
  mem_iff : ∀ k, k ∈ kept ↔ k ∈ keys ∧ ∀ a ∈ keys, ¬ Below k a
  apart : ∀ a ∈ kept, ∀ b ∈ kept, ¬ Below b a
  covered : ∀ b ∈ keys, b ∉ kept → ∃ a ∈ kept, Below b a

/-- `a` lies below no key, and a key that continues it with a unit before the dot
sorts between `a` and a key below it. -/
structure Hidden (keys : List JsString) (a : JsString) : Prop where
  mem : a ∈ keys
  top : ∀ p ∈ keys, ¬ Below a p
  below : ∃ b ∈ keys, Below b a
  between : ∃ x rest, a ++ x :: rest ∈ keys ∧ x < '.'.toNat

/-- A key lies below none, or below one that lies below none. -/
theorem exists_top (keys : List JsString) (b : JsString) :
    (∀ a ∈ keys, ¬ Below b a) ∨ ∃ a ∈ keys, Below b a ∧ ∀ p ∈ keys, ¬ Below a p := by
  induction hlen : b.length using Nat.strong_induction_on generalizing b with
  | _ n ih =>
      by_cases htop : ∀ a ∈ keys, ¬ Below b a
      · exact .inl htop
      · push Not at htop
        obtain ⟨a, ha, hba⟩ := htop
        have hlt : a.length < n := by
          obtain ⟨rest, rfl⟩ := hba
          rw [← hlen, List.length_append, List.length_cons]
          omega
        rcases ih _ hlt a rfl with htop | ⟨p, hp, hap, htop⟩
        · exact .inr ⟨a, ha, hba, htop⟩
        · exact .inr ⟨p, hp, hba.trans hap, htop⟩

theorem separates_of_mem {keys kept : List JsString}
    (h : ∀ k, k ∈ kept ↔ k ∈ keys ∧ ∀ a ∈ keys, ¬ Below k a) : Separates keys kept := by
  refine ⟨h, fun a ha b hb => ((h b).mp hb).2 a ((h a).mp ha).1, fun b hb hnot => ?_⟩
  rcases exists_top keys b with htop | ⟨a, ha, hba, htop⟩
  · exact absurd ((h b).mpr ⟨hb, htop⟩) hnot
  · exact ⟨a, (h a).mpr ⟨ha, htop⟩, hba⟩

section Optimize

variable {obj : List JsString} (hobj : obj.Nodup) (hdot : ∀ k ∈ obj, DottedPath k)

include hdot in
theorem nil_not_mem : [] ∉ obj := fun h => (hdot [] h).ne_nil rfl

include hobj hdot

theorem subset_of_optimizeKeys {k : JsString} (h : k ∈ optimizeKeys obj) : k ∈ obj :=
  ((mem_optimizeKeys hobj (nil_not_mem hdot)).mp h).1

theorem top_kept {b : JsString} (hb : b ∈ obj) (htop : ∀ a ∈ obj, ¬ Below b a) :
    b ∈ optimizeKeys obj := by
  refine (mem_optimizeKeys hobj (nil_not_mem hdot)).mpr ⟨hb, fun q hq hqb _ hover => ?_⟩
  have hq := subset_of_optimizeKeys hobj hdot hq
  exact htop q hq ((overlaps_iff (hdot q hq) hqb.ne).mp hover)

/-- The last key kept before `b`, if a key is kept before it. -/
theorem exists_last {p b : JsString} (hp : p ∈ optimizeKeys obj) (hpb : p < b) :
    ∃ q ∈ optimizeKeys obj, q < b ∧ p ≤ q ∧ (∀ k ∈ optimizeKeys obj, k < b → k ≤ q)
      ∧ (b ∈ obj → (b ∈ optimizeKeys obj ↔ ¬ Below b q)) := by
  have hne : ((optimizeKeys obj).toFinset.filter (· < b)).Nonempty :=
    ⟨p, by simp [hp, hpb]⟩
  obtain ⟨q, hq, hmax⟩ := Finset.exists_max_image _ id hne
  obtain ⟨hq, hqb⟩ := Finset.mem_filter.mp hq
  have hq := List.mem_toFinset.mp hq
  have hlast : ∀ k ∈ optimizeKeys obj, k < b → k ≤ q := fun k hk hkb =>
    hmax k (Finset.mem_filter.mpr ⟨List.mem_toFinset.mpr hk, hkb⟩)
  refine ⟨q, hq, hqb, hlast p hp hpb, hlast, fun hb => ?_⟩
  have hover := overlaps_iff (hdot q (subset_of_optimizeKeys hobj hdot hq)) hqb.ne
  rw [mem_optimizeKeys hobj (nil_not_mem hdot), ← hover]
  constructor
  · exact fun h => h.2 q hq hqb hlast
  · intro h
    refine ⟨hb, fun r hr hrb hmax' => ?_⟩
    rwa [le_antisymm (hlast r hr hrb) (hmax' q hq hqb)]

/-- Without hidden paths what is kept lies below nothing: of what is kept and lies
below a key, the first in order is hidden. -/
theorem kept_top (hhidden : ∀ a, ¬ Hidden obj a) {b : JsString} (hb : b ∈ optimizeKeys obj) :
    ∀ a ∈ obj, ¬ Below b a := by
  classical
  by_contra hnot
  have hne : ((optimizeKeys obj).toFinset.filter fun b => ¬ ∀ a ∈ obj, ¬ Below b a).Nonempty :=
    ⟨b, Finset.mem_filter.mpr ⟨List.mem_toFinset.mpr hb, hnot⟩⟩
  obtain ⟨c, hc, hmin⟩ := Finset.exists_min_image _ id hne
  obtain ⟨hc, hcnot⟩ := Finset.mem_filter.mp hc
  have hc := List.mem_toFinset.mp hc
  have hcobj := subset_of_optimizeKeys hobj hdot hc
  obtain ⟨p, hp, hcp, htop⟩ := (exists_top obj c).resolve_left hcnot
  obtain ⟨q, hq, hqc, hpq, -, hiff⟩ :=
    exists_last hobj hdot (top_kept hobj hdot hp htop) hcp.lt
  rcases hpq.eq_or_lt with rfl | hpq
  · exact (hiff hcobj).mp hc hcp
  · have hqobj := subset_of_optimizeKeys hobj hdot hq
    rcases hcp.between hpq hqc with hqp | ⟨x, rest, rfl, hx⟩
    · have hle : c ≤ q := hmin q <|
        Finset.mem_filter.mpr ⟨List.mem_toFinset.mpr hq, fun htop => htop p hp hqp⟩
      exact absurd hqc hle.not_gt
    · exact hhidden p ⟨hp, htop, ⟨c, hcobj, hcp⟩, x, rest, hqobj, hx⟩

/-- What lies below a hidden path is not all dropped. -/
theorem not_hidden (hsep : Separates obj (optimizeKeys obj)) (a : JsString) : ¬ Hidden obj a := by
  rintro ⟨ha, htop, ⟨b, hb, hba⟩, x, rest, hc, hx⟩
  -- the key between, or the key it lies below, is kept before `b`
  have hkept : ∃ u, a ++ x :: u ∈ optimizeKeys obj := by
    rcases exists_top obj (a ++ x :: rest) with hctop | ⟨p, hp, ⟨t, ht⟩, hptop⟩
    · exact ⟨rest, top_kept hobj hdot hc hctop⟩
    · rcases List.append_eq_append_iff.mp ht with ⟨u, rfl, hu⟩ | ⟨u, rfl, hu⟩
      · cases u with
        | nil =>
            cases hu
            exact absurd hx (lt_irrefl _)
        | cons y u =>
            cases hu
            exact ⟨u, top_kept hobj hdot hp hptop⟩
      · cases u with
        | nil =>
            cases hu
            exact absurd hx (lt_irrefl _)
        | cons y u =>
            cases hu
            exact absurd ⟨u, rfl⟩ (htop p hp)
  obtain ⟨u, hc⟩ := hkept
  have hac : a < a ++ x :: u := lt_append_cons a x u
  have hcb : a ++ x :: u < b := by
    obtain ⟨t, rfl⟩ := hba
    exact List.append_left_lt (List.cons_lt_cons_iff.mpr (.inl hx))
  obtain ⟨q, hq, hqb, hcq, -, hiff⟩ := exists_last hobj hdot hc hcb
  have hbq : Below b q := by
    by_contra hnot
    exact hsep.apart a (top_kept hobj hdot ha htop) b ((hiff hb).mpr hnot) hba
  have haq := hac.trans_le hcq
  rcases hba.comparable hbq with rfl | haq' | hqa
  · exact lt_irrefl _ haq
  · exact lt_asymm haq haq'.lt
  · exact hsep.apart a (top_kept hobj hdot ha htop) q hq hqa

end Optimize

/-- The projection keeps the paths below no other just when no path is hidden. -/
theorem optimizeProjection_iff (obj : Projection) (hdot : ∀ k ∈ obj.keys, DottedPath k) :
    Separates obj.keys (optimizeProjection obj).keys ↔ ∀ a, ¬ Hidden obj.keys a := by
  constructor
  · exact not_hidden obj.nodup hdot
  · intro hhidden
    refine separates_of_mem fun k => ⟨fun hk => ?_, fun ⟨hk, htop⟩ => ?_⟩
    · exact ⟨subset_of_optimizeKeys obj.nodup hdot hk, kept_top obj.nodup hdot hhidden hk⟩
    · exact top_kept obj.nodup hdot hk htop

/-- A path, one that continues it with a dash, and one below it. -/
def dashed : Projection := ⟨[js "a", js "a-b", js "a.b"], by decide⟩

theorem dashed_iff : Separates dashed.keys (optimizeProjection dashed).keys
    ↔ ∀ a, ¬ Hidden dashed.keys a :=
  optimizeProjection_iff dashed (by decide)

theorem dashed_overlap : ¬ Separates dashed.keys (optimizeProjection dashed).keys := by
  intro h
  have hkeys : (optimizeProjection dashed).keys = dashed.keys := by decide
  rw [hkeys] at h
  exact h.apart (js "a") (by decide) (js "a.b") (by decide) ⟨js "b", rfl⟩

end Projection

end GenieAcs
