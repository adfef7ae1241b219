import Mathlib.Algebra.Order.Group.Nat
import Mathlib.Data.List.DropRight
import Mathlib.Data.List.TakeWhile

/-!
# Parsers that try alternatives in order

A parser reads a value from the front of a text or fails. Alternatives are tried in
order and `many` takes what it can, so that a text is read in one way.

A recursive grammar is a function of parsers, and it is run with as many levels of
recursion as the text is long (`fix`). More change nothing if each level reads something
before the next (`Guarded.fix_eq`).
-/

namespace GenieAcs

namespace Peg

variable {T α β : Type*}

abbrev Parser (T α : Type*) := List T → Option (α × List T)

def ret (a : α) : Parser T α := fun s => some (a, s)

def map (f : α → β) (p : Parser T α) : Parser T β := fun s => (p s).map fun r => (f r.1, r.2)

def bind (p : Parser T α) (f : α → Parser T β) : Parser T β := fun s =>
  (p s).bind fun r => f r.1 r.2

/-- `p`, then `q` for its value. -/
def andThen (p : Parser T α) (q : Parser T β) : Parser T β := bind p fun _ => q

/-- `p` for its value, then `q`. -/
def skip (p : Parser T α) (q : Parser T β) : Parser T α := bind p fun a => map (fun _ => a) q

def alt (p q : Parser T α) : Parser T α := fun s => (p s).or (q s)

/-- What follows is dropped as long as it is in the class. -/
def lexeme (space : T → Bool) (p : Parser T α) : Parser T α := fun s =>
  (p s).map fun r => (r.1, r.2.dropWhile space)

def notFollowedBy (p : Parser T α) (c : T → Bool) : Parser T α := fun s =>
  (p s).filter fun r => !r.2.head?.any c

/-- At least one of the class, and as many as there are. -/
def span1 (c : T → Bool) : Parser T (List T) := fun s =>
  if s.head?.any c then some (s.takeWhile c, s.dropWhile c) else none

/-- A text that is like `t`, letter by letter. -/
def literal (same : T → T → Bool) : List T → Parser T Unit
  | [], s => some ((), s)
  | _ :: _, [] => none
  | a :: t, b :: s => if same a b then literal same t s else none

/-- As often as it succeeds; a parser that succeeds without reading is an error. -/
def many (p : Parser T α) (s : List T) : Option (List α × List T) :=
  match p s with
  | none => some ([], s)
  | some (a, r) =>
    if r.length < s.length then (many p r).map fun l => (a :: l.1, l.2) else none
termination_by s.length

def many1 (p : Parser T α) : Parser T (List α) := bind p fun a => map (a :: ·) (many p)

def sepBy (p : Parser T α) (sep : Parser T β) : Parser T (List α) :=
  alt (bind p fun a => map (a :: ·) (many (andThen sep p))) (ret [])

/-! ## Rules -/

variable {p q : Parser T α} {s r : List T} {a : α}

theorem map_some {f : α → β} (h : p s = some (a, r)) : map f p s = some (f a, r) := by
  rw [map, h]
  rfl

theorem map_none {f : α → β} (h : p s = none) : map f p s = none := by
  rw [map, h]
  rfl

theorem bind_some {f : α → Parser T β} (h : p s = some (a, r)) : bind p f s = f a r := by
  rw [bind, h]
  rfl

theorem bind_none {f : α → Parser T β} (h : p s = none) : bind p f s = none := by
  rw [bind, h]
  rfl

theorem andThen_some {q : Parser T β} (h : p s = some (a, r)) : andThen p q s = q r :=
  bind_some h

theorem skip_some {b : β} {q : Parser T β} {t : List T} (h : p s = some (a, r))
    (hq : q r = some (b, t)) : skip p q s = some (a, t) :=
  (bind_some h).trans (map_some hq)

theorem alt_left (h : p s = some (a, r)) : alt p q s = some (a, r) := by
  rw [alt, h]
  rfl

theorem alt_right (h : p s = none) : alt p q s = q s := by
  rw [alt, h]
  rfl

theorem lexeme_some {space : T → Bool} (h : p s = some (a, r)) :
    lexeme space p s = some (a, r.dropWhile space) := by
  rw [lexeme, h]
  rfl

theorem lexeme_none {space : T → Bool} (h : p s = none) : lexeme space p s = none := by
  rw [lexeme, h]
  rfl

theorem notFollowedBy_some {c : T → Bool} (h : p s = some (a, r)) (hr : r.head?.any c = false) :
    notFollowedBy p c s = some (a, r) := by
  rw [notFollowedBy, h, Option.filter_some, hr]
  rfl

theorem notFollowedBy_none {c : T → Bool} (h : p s = none) : notFollowedBy p c s = none := by
  rw [notFollowedBy, h]
  rfl

theorem head?_dropWhile (c : T → Bool) (s : List T) : (s.dropWhile c).head?.any c = false := by
  induction s with
  | nil => rfl
  | cons x s ih =>
      rw [List.dropWhile_cons]
      split_ifs with hx
      · exact ih
      · exact Bool.eq_false_iff.mpr hx

theorem span1_append {c : T → Bool} {w : List T} (hw : ∀ x ∈ w, c x = true) (hne : w ≠ [])
    (hs : s.head?.any c = false) : span1 c (w ++ s) = some (w, s) := by
  have hstop : s.takeWhile c = [] ∧ s.dropWhile c = s := by
    cases s with
    | nil => exact ⟨rfl, rfl⟩
    | cons x s =>
        have hx : c x = false := hs
        rw [List.takeWhile_cons, List.dropWhile_cons, hx]
        exact ⟨rfl, rfl⟩
  have hhead : (w ++ s).head?.any c = true := by
    cases w with
    | nil => exact absurd rfl hne
    | cons x w => exact hw x List.mem_cons_self
  rw [span1, if_pos hhead, List.takeWhile_append_of_pos hw, List.dropWhile_append_of_pos hw,
    hstop.1, hstop.2, List.append_nil]

theorem span1_none {c : T → Bool} (hs : s.head?.any c = false) : span1 c s = none := by
  rw [span1, hs]
  rfl

theorem many_none (h : p s = none) : many p s = some ([], s) := by
  rw [many, h]

theorem many_some {l : List α} {t : List T} (h : p s = some (a, r)) (hr : r.length < s.length)
    (ht : many p r = some (l, t)) : many p s = some (a :: l, t) := by
  rw [many, h]
  simp only [if_pos hr, ht, Option.map_some]

theorem many1_some {l : List α} {t : List T} (h : p s = some (a, r))
    (ht : many p r = some (l, t)) : many1 p s = some (a :: l, t) :=
  (bind_some h).trans (map_some ht)

/-! ## What lies behind -/

/-- What a parser does does not depend on the text `rest` behind the one it reads. -/
def Stable (p : Parser T α) (rest : List T) : Prop :=
  ∀ s, p (s ++ rest) = (p s).map fun x => (x.1, x.2 ++ rest)

section

variable {rest : List T}

theorem Stable.some (h : Stable p rest) (hs : p s = some (a, r)) :
    p (s ++ rest) = Option.some (a, r ++ rest) := by
  rw [h s, hs]
  rfl

theorem Stable.none (h : Stable p rest) (hs : p s = none) : p (s ++ rest) = Option.none := by
  rw [h s, hs]
  rfl

theorem stable_ret (a : α) : Stable (ret a) rest := fun _ => rfl

theorem Stable.bind {f : α → Parser T β} (hp : Stable p rest) (hf : ∀ a, Stable (f a) rest) :
    Stable (bind p f) rest := fun s => by
  rw [Peg.bind, Peg.bind, hp]
  cases p s with
  | none => rfl
  | some x => exact hf x.1 x.2

theorem Stable.map (hp : Stable p rest) (f : α → β) : Stable (map f p) rest := fun s => by
  rw [Peg.map, Peg.map, hp]
  cases p s <;> rfl

theorem Stable.alt (hp : Stable p rest) (hq : Stable q rest) : Stable (alt p q) rest := fun s => by
  rw [Peg.alt, Peg.alt, hp, hq]
  cases p s <;> rfl

theorem stable_span1 {c : T → Bool} (h : rest.head?.any c = false) :
    Stable (span1 c) rest := fun s => by
  have hhead : (s.dropWhile c ++ rest).head?.any c = false := by
    have hdrop := head?_dropWhile c s
    cases hs : s.dropWhile c with
    | nil => exact h
    | cons x d =>
        rw [hs] at hdrop
        exact hdrop
  have htake : ∀ x ∈ s.takeWhile c, c x = true := fun x hx => List.mem_takeWhile_imp hx
  have hsplit : s ++ rest = s.takeWhile c ++ (s.dropWhile c ++ rest) := by
    rw [← List.append_assoc, List.takeWhile_append_dropWhile]
  by_cases hnil : s.takeWhile c = []
  · have hdrop : s.dropWhile c = s := by
      rw [← List.takeWhile_append_dropWhile (p := c) (l := s), hnil, List.nil_append,
        List.dropWhile_idempotent]
    rw [hdrop] at hhead
    rw [span1_none hhead, span1_none]
    · rfl
    · rw [← hdrop]
      exact head?_dropWhile c s
  · have hs := span1_append htake hnil (head?_dropWhile c s)
    rw [List.takeWhile_append_dropWhile] at hs
    rw [hs, hsplit, span1_append htake hnil hhead]
    rfl

theorem stable_literal {same : T → T → Bool} {t : List T}
    (h : ∀ a ∈ t, rest.head?.any (same a) = false) : Stable (literal same t) rest := fun s => by
  induction t generalizing s with
  | nil => rfl
  | cons a t ih =>
      obtain ⟨ha, ht⟩ := List.forall_mem_cons.mp h
      cases s with
      | nil =>
          cases rest with
          | nil => rfl
          | cons b rest =>
              have hb : same a b = false := ha
              rw [List.nil_append, literal, literal, hb]
              rfl
      | cons b s =>
          rw [List.cons_append, literal, literal]
          split_ifs
          · exact ih ht s
          · rfl

theorem Stable.notFollowedBy {c : T → Bool} (hp : Stable p rest)
    (h : rest.head?.any c = false) : Stable (notFollowedBy p c) rest := fun s => by
  rw [Peg.notFollowedBy, Peg.notFollowedBy, hp]
  cases p s with
  | none => rfl
  | some x =>
      have hhead : (x.2 ++ rest).head?.any c = x.2.head?.any c := by
        cases x.2 with
        | nil => exact h
        | cons y t => rfl
      rw [Option.map_some, Option.filter_some, Option.filter_some, hhead]
      split_ifs <;> rfl

end

/-! ## What is read -/

/-- What is left is not longer. -/
def Keeps (p : Parser T α) : Prop := ∀ s a r, p s = some (a, r) → r.length ≤ s.length

/-- What is left is shorter. -/
def Reads (p : Parser T α) : Prop := ∀ s a r, p s = some (a, r) → r.length < s.length

/-- Texts shorter than `n` are read in the same way. -/
def Agree (n : ℕ) (p q : Parser T α) : Prop := ∀ s, s.length < n → p s = q s

variable {p' : Parser T α} {n : ℕ}

theorem Reads.keeps (h : Reads p) : Keeps p := fun s a r hs => (h s a r hs).le

theorem Agree.refl (p : Parser T α) : Agree n p p := fun _ _ => rfl

theorem keeps_ret (a : α) : Keeps (ret a : Parser T α) := fun s b r h => by
  cases h
  rfl

theorem Keeps.map (h : Keeps p) (f : α → β) : Keeps (map f p) := fun s b r hs => by
  obtain ⟨x, hx, heq⟩ := Option.map_eq_some_iff.mp hs
  cases heq
  exact h s x.1 x.2 hx

theorem Reads.map (h : Reads p) (f : α → β) : Reads (Peg.map f p) := fun s b r hs => by
  obtain ⟨x, hx, heq⟩ := Option.map_eq_some_iff.mp hs
  cases heq
  exact h s x.1 x.2 hx

theorem Agree.map (h : Agree n p p') (f : α → β) : Agree n (Peg.map f p) (Peg.map f p') :=
  fun s hs => by rw [Peg.map, Peg.map, h s hs]

section

variable {f f' : α → Parser T β}

theorem Keeps.bind (h : Keeps p) (hf : ∀ a, Keeps (f a)) : Keeps (bind p f) := fun s b r hs => by
  obtain ⟨x, hx, hb⟩ := Option.bind_eq_some_iff.mp hs
  exact (hf x.1 x.2 b r hb).trans (h s x.1 x.2 hx)

theorem Reads.bind (h : Reads p) (hf : ∀ a, Keeps (f a)) : Reads (Peg.bind p f) :=
  fun s b r hs => by
    obtain ⟨x, hx, hb⟩ := Option.bind_eq_some_iff.mp hs
    exact (hf x.1 x.2 b r hb).trans_lt (h s x.1 x.2 hx)

theorem Agree.bind (h : Agree n p p') (hp : Keeps p) (hf : ∀ a, Agree n (f a) (f' a)) :
    Agree n (Peg.bind p f) (Peg.bind p' f') := fun s hs => by
  rw [Peg.bind, Peg.bind, ← h s hs]
  cases hx : p s with
  | none => rfl
  | some x => exact hf x.1 x.2 ((hp s x.1 x.2 hx).trans_lt hs)

/-- Behind what is read the texts are shorter. -/
theorem Agree.bind_reads (h : Agree (n + 1) p p') (hp : Reads p)
    (hf : ∀ a, Agree n (f a) (f' a)) : Agree (n + 1) (Peg.bind p f) (Peg.bind p' f') :=
  fun s hs => by
    rw [Peg.bind, Peg.bind, ← h s hs]
    cases hx : p s with
    | none => rfl
    | some x => exact hf x.1 x.2 ((hp s x.1 x.2 hx).trans_le (Nat.le_of_lt_succ hs))

end

theorem Keeps.alt (h : Keeps p) (hq : Keeps q) : Keeps (alt p q) := fun s a r hs => by
  rcases Option.or_eq_some_iff.mp hs with hs | ⟨-, hs⟩
  · exact h s a r hs
  · exact hq s a r hs

theorem Reads.alt (h : Reads p) (hq : Reads q) : Reads (Peg.alt p q) := fun s a r hs => by
  rcases Option.or_eq_some_iff.mp hs with hs | ⟨-, hs⟩
  · exact h s a r hs
  · exact hq s a r hs

theorem Agree.alt {q' : Parser T α} (h : Agree n p p') (hq : Agree n q q') :
    Agree n (Peg.alt p q) (Peg.alt p' q') := fun s hs => by
  rw [Peg.alt, Peg.alt, h s hs, hq s hs]

theorem Reads.lexeme (h : Reads p) (space : T → Bool) : Reads (lexeme space p) :=
  fun s a r hs => by
    obtain ⟨x, hx, heq⟩ := Option.map_eq_some_iff.mp hs
    cases heq
    exact (List.dropWhile_suffix space).length_le.trans_lt (h s x.1 x.2 hx)

theorem Keeps.lexeme (h : Keeps p) (space : T → Bool) : Keeps (Peg.lexeme space p) :=
  fun s a r hs => by
    obtain ⟨x, hx, heq⟩ := Option.map_eq_some_iff.mp hs
    cases heq
    exact (List.dropWhile_suffix space).length_le.trans (h s x.1 x.2 hx)

theorem Agree.lexeme (h : Agree n p p') (space : T → Bool) :
    Agree n (Peg.lexeme space p) (Peg.lexeme space p') := fun s hs => by
  rw [Peg.lexeme, Peg.lexeme, h s hs]

theorem Reads.notFollowedBy (h : Reads p) (c : T → Bool) : Reads (notFollowedBy p c) :=
  fun s a r hs => h s a r (Option.eq_some_of_filter_eq_some hs)

theorem Keeps.notFollowedBy (h : Keeps p) (c : T → Bool) : Keeps (Peg.notFollowedBy p c) :=
  fun s a r hs => h s a r (Option.eq_some_of_filter_eq_some hs)

theorem reads_span1 (c : T → Bool) : Reads (span1 c) := fun s w r hs => by
  rw [span1] at hs
  split_ifs at hs with hhead
  cases hs
  cases s with
  | nil => cases hhead
  | cons x s =>
      have hx : c x = true := hhead
      rw [List.dropWhile_cons, hx, if_pos rfl, List.length_cons]
      exact Nat.lt_succ_of_le (List.dropWhile_suffix c).length_le

theorem length_literal {same : T → T → Bool} {t : List T} {u : Unit}
    (h : literal same t s = some (u, r)) : r.length + t.length = s.length := by
  induction t generalizing s with
  | nil =>
      cases h
      rfl
  | cons x t ih =>
      cases s with
      | nil => cases h
      | cons y s =>
          rw [literal] at h
          split_ifs at h
          have hlength := ih h
          rw [List.length_cons, List.length_cons]
          omega

theorem reads_literal (same : T → T → Bool) {t : List T} (ht : t ≠ []) :
    Reads (literal same t) := fun s u r hs => by
  have hlength := length_literal hs
  have hpos := List.length_pos_iff.mpr ht
  omega

theorem keeps_literal (same : T → T → Bool) (t : List T) : Keeps (literal same t) :=
  fun s u r hs => by
    have hlength := length_literal hs
    omega

theorem keeps_many (p : Parser T α) : Keeps (many p) := by
  intro s
  induction hn : s.length using Nat.strong_induction_on generalizing s with
  | _ n ih =>
    intro l t hl
    subst hn
    rw [many] at hl
    cases hp : p s with
    | none =>
        rw [hp] at hl
        cases hl
        rfl
    | some x =>
        rw [hp] at hl
        dsimp only at hl
        split_ifs at hl with hx
        obtain ⟨y, hy, heq⟩ := Option.map_eq_some_iff.mp hl
        cases heq
        exact (ih x.2.length hx x.2 rfl y.1 y.2 hy).trans hx.le

theorem Agree.many (h : Agree n p p') : Agree n (many p) (many p') := by
  intro s
  induction hm : s.length using Nat.strong_induction_on generalizing s with
  | _ m ih =>
    intro hs
    subst hm
    rw [Peg.many, Peg.many, ← h s hs]
    cases p s with
    | none => rfl
    | some x =>
        dsimp only
        split_ifs with hx
        · rw [ih x.2.length hx x.2 rfl (hx.trans hs)]
        · rfl

theorem Keeps.skip {q : Parser T β} (h : Keeps p) (hq : Keeps q) : Keeps (skip p q) :=
  h.bind fun a => hq.map fun _ => a

/-! ## Parsers made from a parser -/

/-- Where `e` and `e'` agree, what is made of them agrees. -/
structure Local (g : Parser T α → Parser T β) : Prop where
  keeps : ∀ e, Keeps e → Keeps (g e)
  agree : ∀ n e e', Keeps e → Keeps e' → Agree n e e' → Agree n (g e) (g e')

/-- Something is read before `e` is used. -/
structure Guarded (g : Parser T α → Parser T β) : Prop where
  keeps : ∀ e, Keeps e → Keeps (g e)
  agree : ∀ n e e', Keeps e → Keeps e' → Agree n e e' → Agree (n + 1) (g e) (g e')

section

variable {γ : Type*} {g h : Parser T α → Parser T β} {f : β → Parser T α → Parser T γ}

theorem Local.id : Local fun e : Parser T α => e := ⟨fun _ he => he, fun _ _ _ _ _ he => he⟩

theorem Local.const {p : Parser T β} (hp : Keeps p) : Local fun _ : Parser T α => p :=
  ⟨fun _ _ => hp, fun _ _ _ _ _ _ => .refl p⟩

theorem Local.bind (hg : Local g) (hf : ∀ b, Local (f b)) :
    Local fun e => bind (g e) fun b => f b e where
  keeps e he := (hg.keeps e he).bind fun b => (hf b).keeps e he
  agree n e e' he he' hn := (hg.agree n e e' he he' hn).bind (hg.keeps e he) fun b =>
    (hf b).agree n e e' he he' hn

theorem Local.map (hg : Local g) (f : β → γ) : Local fun e => map f (g e) where
  keeps e he := (hg.keeps e he).map f
  agree n e e' he he' hn := (hg.agree n e e' he he' hn).map f

theorem Local.skip (hg : Local g) {q : Parser T γ} (hq : Keeps q) : Local fun e => skip (g e) q :=
  hg.bind fun _ => .const (hq.map _)

theorem Local.alt (hg : Local g) (hh : Local h) : Local fun e => alt (g e) (h e) where
  keeps e he := (hg.keeps e he).alt (hh.keeps e he)
  agree n e e' he he' hn := (hg.agree n e e' he he' hn).alt (hh.agree n e e' he he' hn)

theorem Local.many (hg : Local g) : Local fun e => many (g e) where
  keeps e _ := keeps_many (g e)
  agree n e e' he he' hn := (hg.agree n e e' he he' hn).many

theorem Local.sepBy (hg : Local g) {sep : Parser T γ} (hsep : Keeps sep) :
    Local fun e => sepBy (g e) sep :=
  (hg.bind fun b => ((Local.const hsep).bind fun _ => hg).many.map (b :: ·)).alt
    (.const (keeps_ret []))

theorem Guarded.const {p : Parser T β} (hp : Keeps p) : Guarded fun _ : Parser T α => p :=
  ⟨fun _ _ => hp, fun _ _ _ _ _ _ => .refl p⟩

theorem Guarded.bind (hg : Guarded g) (hf : ∀ b, Guarded (f b)) :
    Guarded fun e => Peg.bind (g e) fun b => f b e where
  keeps e he := (hg.keeps e he).bind fun b => (hf b).keeps e he
  agree n e e' he he' hn := (hg.agree n e e' he he' hn).bind (hg.keeps e he) fun b =>
    (hf b).agree n e e' he he' hn

/-- Behind what is read `e` may be used at once. -/
theorem Guarded.behind {p : Parser T β} (hp : Reads p) (hf : ∀ b, Local (f b)) :
    Guarded fun e => Peg.bind p fun b => f b e where
  keeps e he := hp.keeps.bind fun b => (hf b).keeps e he
  agree n e e' he he' hn := (Agree.refl p).bind_reads hp fun b => (hf b).agree n e e' he he' hn

theorem Guarded.map (hg : Guarded g) (f : β → γ) : Guarded fun e => Peg.map f (g e) where
  keeps e he := (hg.keeps e he).map f
  agree n e e' he he' hn := (hg.agree n e e' he he' hn).map f

theorem Guarded.skip (hg : Guarded g) {q : Parser T γ} (hq : Keeps q) :
    Guarded fun e => Peg.skip (g e) q :=
  hg.bind fun _ => .const (hq.map _)

theorem Guarded.alt (hg : Guarded g) (hh : Guarded h) : Guarded fun e => Peg.alt (g e) (h e) where
  keeps e he := (hg.keeps e he).alt (hh.keeps e he)
  agree n e e' he he' hn := (hg.agree n e e' he he' hn).alt (hh.agree n e e' he he' hn)

theorem Guarded.many (hg : Guarded g) : Guarded fun e => Peg.many (g e) where
  keeps e _ := keeps_many (g e)
  agree n e e' he he' hn := (hg.agree n e e' he he' hn).many

theorem Guarded.lexeme (hg : Guarded g) (space : T → Bool) :
    Guarded fun e => Peg.lexeme space (g e) where
  keeps e he := (hg.keeps e he).lexeme space
  agree n e e' he he' hn := (hg.agree n e e' he he' hn).lexeme space

end

/-! ## Recursion -/

/-- The grammar with so many levels of recursion. -/
def fix (g : Parser T α → Parser T α) : ℕ → Parser T α
  | 0 => fun _ => none
  | n + 1 => g (fix g n)

variable {g : Parser T α → Parser T α}

theorem Guarded.keeps_fix (hg : Guarded g) (n : ℕ) : Keeps (fix g n) := by
  induction n with
  | zero =>
      intro s a r hs
      cases hs
  | succ n ih => exact hg.keeps _ ih

theorem Guarded.agree_fix (hg : Guarded g) {n m : ℕ} (h : n ≤ m) : Agree n (fix g n) (fix g m) := by
  induction n generalizing m with
  | zero => exact fun s hs => absurd hs (Nat.not_lt_zero _)
  | succ n ih =>
      cases m with
      | zero => exact absurd h (Nat.not_succ_le_zero n)
      | succ m =>
          exact hg.agree n _ _ (hg.keeps_fix n) (hg.keeps_fix m) (ih (Nat.le_of_succ_le_succ h))

/-- As many levels as the text is long are enough. -/
theorem Guarded.fix_eq (hg : Guarded g) {n m : ℕ} {s : List T} (hn : s.length < n)
    (hm : s.length < m) : fix g n s = fix g m s := by
  rcases le_total n m with h | h
  · exact hg.agree_fix h s hn
  · exact (hg.agree_fix h s hm).symm

end Peg

end GenieAcs
