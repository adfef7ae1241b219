import Mathlib.Data.Fintype.EquivFin
import Mathlib.Data.List.Chain
import GenieAcs.Lib.Wildcard

/-!
# Inclusion of patterns

A pattern with all texts of `q` covers `q` as soon as there is a unit it does not
name. One text of `q` shows it: a `run` of `q` becomes many of those units while
the next unit of `p` is looked for, and nothing while `p` has units to spare for
`one`.
-/

namespace GenieAcs

namespace Wildcard

variable {α : Type} {p q : List (Token α)} {s t : List α} {a b : α}

/-! ## Filled texts -/


/-- The text of `q` with `n` units `z` for each `run`, and `z` for each `one`. -/
def fill (z : α) (n : Nat) : List (Token α) → List α
  | [] => []
  | .run :: q => List.replicate n z ++ fill z n q
  | .one :: q => z :: fill z n q
  | .unit a :: q => a :: fill z n q

variable {z : α} {n : Nat}

theorem fill_matches (z : α) (n : Nat) (q : List (Token α)) : Matches q (fill z n q) := by
  induction q with
  | nil => exact .nil
  | cons c q ih =>
      cases c with
      | run => exact matches_run.mpr ⟨_, _, rfl, ih⟩
      | one => exact .one ih
      | unit a => exact .unit ih

theorem fill_append (z : α) (n : Nat) (p q : List (Token α)) :
    fill z n (p ++ q) = fill z n p ++ fill z n q := by
  induction p with
  | nil => rfl
  | cons c p ih =>
      cases c with
      | run => rw [List.cons_append, fill, ih, fill, List.append_assoc]
      | one => rw [List.cons_append, fill, ih, fill, List.cons_append]
      | unit a => rw [List.cons_append, fill, ih, fill, List.cons_append]

/-- The unit of a token other than `run`. -/
theorem fill_cons {c : Token α} (hc : c ≠ .run) :
    ∃ b, c.Accepts b ∧ (∀ a, a ≠ z → b = a → c = .unit a) ∧ fill z n (c :: q) = b :: fill z n q := by
  cases c with
  | run => exact absurd rfl hc
  | one => exact ⟨z, trivial, fun a ha heq => absurd heq.symm ha, rfl⟩
  | unit a => exact ⟨a, rfl, fun a' _ heq => by rw [heq], rfl⟩

/-- A unit that a text does not have is not found in it. -/
theorem Matches.strip (hz : a ≠ z) (h : Matches (.run :: .unit a :: p) (List.replicate n z ++ s)) :
    Matches (.run :: .unit a :: p) s := by
  induction n with
  | zero => exact h
  | succ n ih =>
      cases h with
      | skip h =>
          obtain ⟨b, s', heq, hacc, -⟩ := (matches_cons (by simp)).mp h
          have hb : z = b := (List.cons.inj heq).1
          exact absurd (Eq.trans hacc hb.symm) hz
      | take h => exact ih h

/-- Tokens other than `run` are laid over tokens other than `run`. -/
theorem covers_one {c d : Token α} (hc : c ≠ .run) (hd : d ≠ .run) (hz : c ≠ .unit z) {b : α}
    (hb : ∀ a, a ≠ z → b = a → d = .unit a) (hacc : c.Accepts b) (h : Covers p q) :
    Covers (c :: p) (d :: q) := by
  cases c with
  | run => exact absurd rfl hc
  | one => exact .one hd h
  | unit a =>
      have ha : a ≠ z := fun heq => hz (heq ▸ rfl)
      rw [hb a ha (Eq.symm hacc)]
      exact .unit h

/-! ## Tokens laid over a filled text -/

theorem Matches.last_unit (h : Matches p (List.replicate n z)) (hp : p.getLast? = some (.unit a)) :
    a = z := by
  obtain ⟨u, rfl⟩ := List.getLast?_eq_some_iff.mp hp
  obtain ⟨v, w, heq, -, hw⟩ := matches_append.mp h
  obtain ⟨b, w', rfl, hacc, -⟩ := (matches_cons (by simp)).mp hw
  have hmem : b ∈ List.replicate n z := by
    rw [heq]
    simp
  exact Eq.trans hacc (List.eq_of_mem_replicate hmem)

/-- A match of tokens other than `run`, the last of them a unit, at the
beginning of a filled text. -/
theorem covers_of_fill {u : List (Token α)} (hrun : .run ∉ u) (hz : .unit z ∉ u)
    (hn : u.length < n) (hlast : ∃ a, u.getLast? = some (.unit a))
    (h : Matches u ((fill z n q).take u.length)) :
    ∃ v q', q = v ++ q' ∧ .run ∉ v ∧ Covers u v := by
  induction u generalizing q n with
  | nil =>
      obtain ⟨a, ha⟩ := hlast
      cases ha
  | cons c u ih =>
      have hc : c ≠ .run := fun heq => hrun (heq ▸ List.mem_cons_self)
      have hcz : c ≠ .unit z := fun heq => hz (heq ▸ List.mem_cons_self)
      cases q with
      | nil =>
          obtain ⟨b, s', heq, -⟩ := (matches_cons hc).mp h
          cases heq
      | cons d q =>
          by_cases hd : d = .run
          · subst hd
            -- the last token would have to be `z`
            obtain ⟨a, ha⟩ := hlast
            rw [fill, List.take_append_of_le_length (by rw [List.length_replicate]; exact Nat.le_of_lt hn),
              List.take_replicate] at h
            exact absurd (List.mem_of_getLast? (h.last_unit ha ▸ ha)) hz
          · obtain ⟨b, -, hb, hfill⟩ := @fill_cons α q z n d hd
            rw [hfill, List.length_cons, List.take_succ_cons] at h
            obtain ⟨b', s', heq, hacc, hu⟩ := (matches_cons hc).mp h
            obtain ⟨rfl, rfl⟩ := List.cons.inj heq
            cases u with
            | nil =>
                refine ⟨[d], q, rfl, by simpa using Ne.symm hd, ?_⟩
                exact covers_one hc hd hcz hb hacc .nil
            | cons e u =>
                have hlast' : ∃ a, (e :: u).getLast? = some (.unit a) := by
                  simpa using hlast
                obtain ⟨v, q', rfl, hv, hcov⟩ := ih (fun hm => hrun (List.mem_cons_of_mem _ hm))
                  (fun hm => hz (List.mem_cons_of_mem _ hm)) (Nat.lt_of_succ_lt hn) hlast' hu
                refine ⟨d :: v, q', rfl, ?_, covers_one hc hd hcz hb hacc hcov⟩
                rw [List.mem_cons, not_or]
                exact ⟨Ne.symm hd, hv⟩

/-- Tokens other than `run` that match a whole filled text. -/
theorem covers_of_fill_all {u : List (Token α)} (hrun : .run ∉ u) (hz : .unit z ∉ u)
    (hn : u.length < n) (h : Matches u (fill z n q)) : Covers u q := by
  induction u generalizing q with
  | nil =>
      cases q with
      | nil => exact .nil
      | cons c q =>
          have hlen := h.length_eq hrun
          cases c with
          | run =>
              simp only [fill, List.length_append, List.length_replicate, List.length_nil] at hlen
              simp only [List.length_nil] at hn
              omega
          | one => cases h
          | unit a => cases h
  | cons c u ih =>
      have hc : c ≠ .run := fun heq => hrun (heq ▸ List.mem_cons_self)
      have hcz : c ≠ .unit z := fun heq => hz (heq ▸ List.mem_cons_self)
      cases q with
      | nil =>
          obtain ⟨b, s', heq, -⟩ := (matches_cons hc).mp h
          cases heq
      | cons d q =>
          by_cases hd : d = .run
          · subst hd
            have hlen := h.length_eq hrun
            rw [fill, List.length_append, List.length_replicate] at hlen
            omega
          · obtain ⟨b, -, hb, hfill⟩ := @fill_cons α q z n d hd
            rw [hfill] at h
            obtain ⟨b', s', heq, hacc, hu⟩ := (matches_cons hc).mp h
            obtain ⟨rfl, rfl⟩ := List.cons.inj heq
            exact covers_one hc hd hcz hb hacc (ih (fun hm => hrun (List.mem_cons_of_mem _ hm))
              (fun hm => hz (List.mem_cons_of_mem _ hm)) (Nat.lt_of_succ_lt hn) hu)

/-- The last tokens of a pattern are looked for at the end. -/
theorem covers_last {u : List (Token α)} (hrun : .run ∉ u) (hz : .unit z ∉ .unit a :: u)
    (hn : u.length + 1 < n) (h : Matches (.run :: .unit a :: u) (fill z n q)) :
    Covers (.run :: .unit a :: u) q := by
  have ha : a ≠ z := fun heq => hz (heq ▸ List.mem_cons_self)
  have hrun' : Token.run ∉ .unit a :: u := by simpa using hrun
  induction q with
  | nil =>
      cases h with
      | skip h => cases h
  | cons d q ih =>
      by_cases hd : d = .run
      · subst hd
        exact .take (ih (h.strip ha))
      · obtain ⟨b, -, -, hfill⟩ := @fill_cons α q z n d hd
        rw [hfill] at h
        cases h with
        | skip h => exact .skip (covers_of_fill_all hrun' hz hn (hfill ▸ h))
        | take h => exact .take (ih h)

/-- What comes after the first occurrence matches the rest of the text. -/
theorem Matches.rest {u : List (Token α)} (hrun : .run ∉ u)
    (h : Matches (.run :: (u ++ .run :: p)) (s ++ t)) (hs : s.length ≤ u.length) :
    Matches (.run :: p) t := by
  obtain ⟨x, y, hxy, hy⟩ := matches_run.mp h
  obtain ⟨v, y', rfl, hv, hp⟩ := matches_append.mp hy
  obtain ⟨x', y'', rfl, hp'⟩ := matches_run.mp hp
  have hlen := hv.length_eq hrun
  -- what is left ends later than `s`
  rw [← List.append_assoc, ← List.append_assoc] at hxy
  obtain ⟨w, -, rfl⟩ | ⟨w, hw, rfl⟩ := List.append_eq_append_iff.mp hxy
  · exact matches_run.mpr ⟨w, y'', rfl, hp'⟩
  · have hnil : w = [] := by
      have hwlen := congrArg List.length hw
      simp only [List.length_append] at hwlen
      exact List.length_eq_zero_iff.mp (by omega)
    subst hnil
    exact .skip hp'

/-- The tokens up to the next `run` are looked for, with a text that answers
what comes after them. -/
theorem covers_search {u : List (Token α)} (hrun : .run ∉ u) (hz : .unit z ∉ .unit a :: u)
    (hlast : ∃ c, (Token.unit a :: u).getLast? = some (.unit c)) (hn : u.length + 1 < n)
    (hp : ∀ q, ∃ w, Matches q w ∧ (Matches (.run :: p) w → Covers (.run :: p) q))
    (q : List (Token α)) : ∃ w, Matches q w
      ∧ w.take (u.length + 1) = (fill z n q).take (u.length + 1)
      ∧ (Matches (.run :: (.unit a :: u ++ .run :: p)) w →
        Covers (.run :: (.unit a :: u ++ .run :: p)) q) := by
  have ha : a ≠ z := fun heq => hz (heq ▸ List.mem_cons_self)
  have hrun' : Token.run ∉ .unit a :: u := by simpa using hrun
  have hz' : ∀ q, Matches (.run :: (.unit a :: u ++ .run :: p)) q → q ≠ [] := by
    rintro q h rfl
    cases h with
    | skip h => cases h
  -- the tokens stand at the beginning of `q`
  have hfirst : ∀ v q', .run ∉ v → Covers (.unit a :: u) v → ∃ w, Matches (v ++ q') w
      ∧ w.take (u.length + 1) = (fill z n (v ++ q')).take (u.length + 1)
      ∧ (Matches (.run :: (.unit a :: u ++ .run :: p)) w →
        Covers (.run :: (.unit a :: u ++ .run :: p)) (v ++ q')) := by
    intro v q' hv hcov
    obtain ⟨w, hw, hmatch⟩ := hp q'
    have hlen : (fill z n v).length = u.length + 1 :=
      (hcov.sound (fill_matches z n v)).length_eq hrun'
    refine ⟨fill z n v ++ w, (fill_matches z n v).append hw, ?_, fun h => ?_⟩
    · rw [fill_append, ← hlen, List.take_left, List.take_left]
    · exact .skip (hcov.append (hmatch (h.rest hrun' (Nat.le_of_eq hlen))))
  induction q with
  | nil => exact ⟨[], .nil, rfl, fun h => absurd rfl (hz' [] h)⟩
  | cons d q ih =>
      obtain ⟨w, hw, htake, hmatch⟩ := ih
      by_cases hd : d = .run
      · subst hd
        refine ⟨List.replicate n z ++ w, matches_run.mpr ⟨_, w, rfl, hw⟩, ?_, fun h => ?_⟩
        · rw [fill, List.take_append_of_le_length, List.take_append_of_le_length]
          · rw [List.length_replicate]
            exact Nat.le_of_lt hn
          · rw [List.length_replicate]
            exact Nat.le_of_lt hn
        · exact .take (hmatch (h.strip ha))
      · obtain ⟨b, hacc, -, hfill⟩ := @fill_cons α q z n d hd
        by_cases hhead : ∃ v q', d :: q = v ++ q' ∧ .run ∉ v ∧ Covers (.unit a :: u) v
        · obtain ⟨v, q', hq, hv, hcov⟩ := hhead
          rw [hq]
          exact hfirst v q' hv hcov
        · have hagree : (b :: w).take (u.length + 1) = (fill z n (d :: q)).take (u.length + 1) := by
            rw [hfill, List.take_succ_cons, List.take_succ_cons]
            congr 1
            have hless := congrArg (List.take u.length) htake
            rw [List.take_take, List.take_take, Nat.min_eq_left (Nat.le_succ _)] at hless
            exact hless
          refine ⟨b :: w, (matches_cons hd).mpr ⟨b, w, rfl, hacc, hw⟩, hagree, fun h => ?_⟩
          cases h with
          | take h => exact .take (hmatch h)
          | skip h =>
              -- then they stand at the beginning of `q` after all
              obtain ⟨x, y, hxy, hx, -⟩ := matches_append.mp h
              have hlen := hx.length_eq hrun'
              have htext : x = (fill z n (d :: q)).take (Token.unit a :: u).length := by
                rw [List.length_cons, ← hagree, hxy, ← List.length_cons, ← hlen, List.take_left]
              exact absurd (covers_of_fill hrun' hz hn hlast (htext ▸ hx)) hhead

/-! ## Runs before ones -/

/-- `one` moved behind the runs that follow it. -/
def pushOne : List (Token α) → List (Token α)
  | .run :: p => .run :: pushOne p
  | p => .one :: p

/-- Every `one` moved behind the runs that follow it. -/
def settle : List (Token α) → List (Token α)
  | [] => []
  | .run :: p => .run :: settle p
  | .one :: p => pushOne (settle p)
  | .unit a :: p => .unit a :: settle p

/-- No `one` stands before a `run`. -/
def Settled : List (Token α) → Prop := List.IsChain fun c d => ¬ (c = .one ∧ d = .run)

theorem pushOne_settled (h : Settled p) : Settled (pushOne p) := by
  induction p with
  | nil => exact List.isChain_singleton _
  | cons c p ih =>
      cases c with
      | run =>
          refine List.isChain_cons.mpr ⟨fun d _ hd => ?_, ih (List.IsChain.tail h)⟩
          cases hd.1
      | one => exact List.isChain_cons_cons.mpr ⟨(fun hd => nomatch hd.2), h⟩
      | unit a => exact List.isChain_cons_cons.mpr ⟨(fun hd => nomatch hd.2), h⟩

theorem settle_settled (p : List (Token α)) : Settled (settle p) := by
  induction p with
  | nil => exact List.isChain_nil
  | cons c p ih =>
      cases c with
      | run => exact List.isChain_cons.mpr ⟨(fun _ _ hd => nomatch hd.1), ih⟩
      | one => exact pushOne_settled ih
      | unit a => exact List.isChain_cons.mpr ⟨(fun _ _ hd => nomatch hd.1), ih⟩

theorem covers_pushOne (u : List (Token α)) (h : Covers (u ++ pushOne p) q) :
    Covers (u ++ .one :: p) q := by
  induction p generalizing u with
  | nil => exact h
  | cons c p ih =>
      cases c with
      | run =>
          have hinner := ih (u ++ [.run]) (by rw [List.append_assoc]; exact h)
          rw [List.append_assoc] at hinner
          exact .runFirst u hinner
      | one => exact h
      | unit a => exact h

theorem covers_settle (u : List (Token α)) (h : Covers (u ++ settle p) q) : Covers (u ++ p) q := by
  induction p generalizing u with
  | nil => exact h
  | cons c p ih =>
      have hstep : Covers (u ++ c :: settle p) q → Covers (u ++ c :: p) q := by
        intro h
        have hinner := ih (u ++ [c]) (by rw [List.append_assoc]; exact h)
        rw [List.append_assoc] at hinner
        exact hinner
      cases c with
      | run => exact hstep h
      | one => exact hstep (covers_pushOne u h)
      | unit a => exact hstep h

theorem matches_pushOne : Matches (pushOne p) s ↔ Matches (.one :: p) s := by
  induction p generalizing s with
  | nil => exact Iff.rfl
  | cons c p ih =>
      cases c with
      | run =>
          rw [← matches_swap, pushOne, matches_run, matches_run]
          exact exists₂_congr fun x y => and_congr_right' ih
      | one => exact Iff.rfl
      | unit a => exact Iff.rfl

theorem matches_settle : Matches (settle p) s ↔ Matches p s := by
  induction p generalizing s with
  | nil => exact Iff.rfl
  | cons c p ih =>
      cases c with
      | run =>
          rw [settle, matches_run, matches_run]
          exact exists₂_congr fun x y => and_congr_right' ih
      | one =>
          rw [settle, matches_pushOne, matches_cons (by simp), matches_cons (by simp)]
          exact exists₂_congr fun x y => and_congr_right' (and_congr_right' ih)
      | unit a =>
          rw [settle, matches_cons (by simp), matches_cons (by simp)]
          exact exists₂_congr fun x y => and_congr_right' (and_congr_right' ih)

/-! ## A text on which all depends -/

theorem covers_run (q : List (Token α)) : Covers [.run] q := by
  induction q with
  | nil => exact .skip .nil
  | cons c q ih => exact .take ih

theorem Settled.tail {c : Token α} (h : Settled (c :: p)) : Settled p := List.IsChain.tail h

theorem Settled.not_run {c : Token α} (h : Settled (.one :: c :: p)) : c ≠ .run :=
  fun hc => (List.isChain_cons_cons.mp h).1 ⟨rfl, hc⟩

theorem Settled.run (h : Settled p) : Settled (.run :: p) :=
  List.isChain_cons.mpr ⟨(fun _ _ hd => nomatch hd.1), h⟩

/-- The tokens before the next `run` have no place for many units `z`. -/
theorem not_matches_many (hp : Settled p) (hz : .unit z ∉ p) (hhead : p.head? ≠ some .run)
    (hn : p.length < n) : ¬ Matches p (List.replicate n z ++ s) := by
  induction p generalizing n with
  | nil =>
      obtain ⟨n, rfl⟩ := Nat.exists_eq_succ_of_ne_zero (Nat.ne_of_gt hn)
      rintro ⟨⟩
  | cons c p ih =>
      obtain ⟨n, rfl⟩ := Nat.exists_eq_succ_of_ne_zero (Nat.ne_of_gt (Nat.lt_of_le_of_lt (Nat.zero_le _) hn))
      have hzp : Token.unit z ∉ p := fun hm => hz (List.mem_cons_of_mem _ hm)
      cases c with
      | run => exact absurd rfl hhead
      | unit a =>
          intro h
          cases h with
          | unit h => exact hz List.mem_cons_self
      | one =>
          intro h
          cases h with
          | one h =>
              refine ih hp.tail hzp ?_ (Nat.lt_of_succ_lt_succ hn) h
              cases p with
              | nil => exact fun h => nomatch h
              | cons d p => exact fun h => hp.not_run (Option.some.inj h)

theorem exists_split (p : List (Token α)) :
    ∃ u r, p = u ++ r ∧ .run ∉ u ∧ (r = [] ∨ ∃ p', r = .run :: p') := by
  induction p with
  | nil => exact ⟨[], [], rfl, List.not_mem_nil, Or.inl rfl⟩
  | cons c p ih =>
      by_cases hc : c = .run
      · subst hc
        exact ⟨[], .run :: p, rfl, List.not_mem_nil, Or.inr ⟨p, rfl⟩⟩
      · obtain ⟨u, r, rfl, hu, hr⟩ := ih
        refine ⟨c :: u, r, rfl, ?_, hr⟩
        rw [List.mem_cons, not_or]
        exact ⟨Ne.symm hc, hu⟩

theorem Settled.last_unit {u : List (Token α)} (h : Settled (u ++ .run :: p)) (hu : .run ∉ u)
    (hne : u ≠ []) : ∃ c, u.getLast? = some (.unit c) := by
  have hlast := List.getLast?_eq_some_getLast hne
  have hmem := List.getLast_mem hne
  have hbefore := (List.isChain_append.mp h).2.2 _ hlast .run rfl
  generalize u.getLast hne = c at hlast hmem hbefore
  cases c with
  | run => exact absurd hmem hu
  | one => exact absurd ⟨rfl, rfl⟩ hbefore
  | unit a => exact ⟨a, hlast⟩

/-- A text of `q` on which all depends. -/
theorem exists_text (z : α) (k : Nat) (p : List (Token α)) (hk : p.length ≤ k) (hp : Settled p)
    (hz : .unit z ∉ p) (q : List (Token α)) :
    ∃ w, Matches q w ∧ (Matches p w → Covers p q) := by
  induction k generalizing p q with
  | zero =>
      obtain rfl := List.length_eq_zero_iff.mp (Nat.le_zero.mp hk)
      cases q with
      | nil => exact ⟨[], .nil, fun _ => .nil⟩
      | cons c q =>
          refine ⟨fill z 1 (c :: q), fill_matches z 1 _, fun h => ?_⟩
          cases c with
          | run => cases h
          | one => cases h
          | unit a => cases h
  | succ k ih =>
      cases p with
      | nil => exact ih [] (Nat.zero_le k) hp hz q
      | cons c p =>
          have hkp : p.length ≤ k := Nat.le_of_succ_le_succ hk
          have hzp : Token.unit z ∉ p := fun hm => hz (List.mem_cons_of_mem _ hm)
          by_cases hc : c = .run
          · subst hc
            cases p with
            | nil => exact ⟨fill z 0 q, fill_matches z 0 q, fun _ => covers_run q⟩
            | cons c p =>
                cases c with
                | run =>
                    obtain ⟨w, hw, hmatch⟩ := ih (.run :: p) hkp hp.tail hzp q
                    refine ⟨w, hw, fun h => .skip (hmatch ?_)⟩
                    obtain ⟨x, y, rfl, hy⟩ := matches_run.mp h
                    obtain ⟨x', y, rfl, hp'⟩ := matches_run.mp hy
                    exact matches_run.mpr ⟨x ++ x', y, (List.append_assoc x x' y).symm, hp'⟩
                | one =>
                    -- `one` takes the next token that is not a `run`
                    induction q with
                    | nil =>
                        refine ⟨[], .nil, fun h => ?_⟩
                        cases h with
                        | skip h => cases h
                    | cons d q ihq =>
                        by_cases hd : d = .run
                        · subst hd
                          obtain ⟨w, hw, hmatch⟩ := ihq
                          exact ⟨w, .skip hw, fun h => .take (hmatch h)⟩
                        · obtain ⟨b, hdb, -, -⟩ := @fill_cons α q z 0 d hd
                          obtain ⟨w, hw, hmatch⟩ := ih (.run :: p) hkp hp.tail.tail.run
                            (by simpa using hzp) q
                          refine ⟨b :: w, (matches_cons hd).mpr ⟨b, w, rfl, hdb, hw⟩, fun h => ?_⟩
                          cases matches_swap.mp h with
                          | one h => exact .oneFirst [] (.one hd (hmatch h))
                | unit a =>
                    obtain ⟨u, r, rfl, hu, hr⟩ := exists_split p
                    rw [List.length_cons, List.length_append] at hkp
                    have hzu : Token.unit z ∉ .unit a :: u := by
                      intro hm
                      exact hzp (List.mem_append_left r hm)
                    rcases hr with rfl | ⟨p, rfl⟩
                    · rw [List.append_nil]
                      exact ⟨fill z (u.length + 2) q, fill_matches _ _ q,
                        covers_last hu hzu (Nat.lt_succ_self _)⟩
                    · have hsettled : Settled (.unit a :: u ++ .run :: p) := hp.tail
                      have hrest := (List.isChain_append.mp hsettled).2.1
                      have hzr : Token.unit z ∉ .run :: p := fun hm =>
                        hzp (List.mem_cons_of_mem _ (List.mem_append_right u hm))
                      obtain ⟨w, hw, -, hmatch⟩ := @covers_search α p a z (u.length + 2) u hu hzu
                        (hsettled.last_unit (by simpa using hu) (List.cons_ne_nil _ _))
                        (Nat.lt_succ_self _)
                        (ih (.run :: p) (by rw [List.length_cons] at hkp ⊢; omega) hrest hzr) q
                      exact ⟨w, hw, hmatch⟩
          · cases q with
            | nil =>
                refine ⟨[], .nil, fun h => ?_⟩
                obtain ⟨b, s', heq, -⟩ := (matches_cons hc).mp h
                cases heq
            | cons d q =>
                by_cases hd : d = .run
                · subst hd
                  refine ⟨fill z (p.length + 2) (.run :: q), fill_matches _ _ _, fun h => ?_⟩
                  exact absurd h (not_matches_many hp hz (fun heq => hc (Option.some.inj heq))
                    (Nat.lt_succ_self _))
                · obtain ⟨b, hdb, hb, -⟩ := @fill_cons α q z 0 d hd
                  obtain ⟨w, hw, hmatch⟩ := ih p hkp hp.tail hzp q
                  refine ⟨b :: w, (matches_cons hd).mpr ⟨b, w, rfl, hdb, hw⟩, fun h => ?_⟩
                  obtain ⟨b', w', heq, hacc, hpw⟩ := (matches_cons hc).mp h
                  obtain ⟨rfl, rfl⟩ := List.cons.inj heq
                  exact covers_one hc hd (fun heq => hz (heq ▸ List.mem_cons_self)) hb hacc
                    (hmatch hpw)

/-- A pattern with all texts of another is laid over it, with some `one`s moved
to other runs beside them. -/
theorem covers_of_matches [Infinite α] (h : ∀ s, Matches q s → Matches p s) : Covers p q := by
  classical
  let named : Token α → Option α := fun
    | .unit a => some a
    | _ => none
  obtain ⟨z, hz⟩ := Infinite.exists_notMem_finset ((settle p).filterMap named).toFinset
  have hfresh : Token.unit z ∉ settle p := fun hmem =>
    hz (List.mem_toFinset.mpr (List.mem_filterMap.mpr ⟨.unit z, hmem, rfl⟩))
  obtain ⟨w, hw, hmatch⟩ := exists_text z _ (settle p) (Nat.le_refl _) (settle_settled p) hfresh q
  exact covers_settle [] (hmatch (matches_settle.mpr (h w hw)))

theorem covers_iff [Infinite α] : Covers p q ↔ ∀ s, Matches q s → Matches p s :=
  ⟨fun h _ hs => h.sound hs, covers_of_matches⟩

end Wildcard

end GenieAcs
