import GenieAcs.Lib.Results
import GenieAcs.Lib.Returns
import GenieAcs.SynthSound

/-!
# Don't-cares of arbitrary comparisons

Comparisons of any operands with booleans, numbers and strings. A context of
comparisons is a list of names: the name of a comparison gives its operand,
and an assignment of values to operands decides it. TRUE and 1 are different
right sides of one rank, and the loop over the sorted right sides takes the
first of them to be smaller.
-/

namespace GenieAcs

open Methods (trichotomy ordered valueBefore rhsOf lhsOf)

/-! ## Comparisons and their names -/

/-- The name of a comparison of the operand `l`. -/
def CompareOp.name (op : CompareOp) (l : Expr) (v : Value) : Expr :=
  .app op.toOp [l, .lit (some v)]

theorem CompareOp.name_inj {op op' : CompareOp} {l l' : Expr} {v v' : Value}
    (h : op.name l v = op'.name l' v') : op = op' ∧ l = l' ∧ v = v' := by
  simp only [CompareOp.name, Expr.app.injEq, List.cons.injEq, Expr.lit.injEq, Option.some.injEq,
    and_true] at h
  exact ⟨Leaf.toOp_injective h.1, h.2.1, h.2.2⟩

/-- How the methods treat comparisons, given what they make of operands. -/
structure CompareMethods (m : Methods) where
  operand : Clause → Except JsError Expr
  expression : ∀ lhs op v,
    m.expression (.compare lhs op v) = (operand lhs).map fun l => op.name l v
  getNullables : ∀ lhs op v op' v',
    m.getNullables (.compare lhs op v) = m.getNullables (.compare lhs op' v')
  isNull : ∀ c ns, m.getNullables (.isNull c) = .ok ns → ns = []

theorem CompareMethods.operand_of_expression {m : Methods} (M : CompareMethods m) {lhs : Clause}
    {op : CompareOp} {v : Value} {key : Expr} (h : m.expression (.compare lhs op v) = .ok key) :
    ∃ l, M.operand lhs = .ok l ∧ op.name l v = key := by
  rw [M.expression] at h
  cases hl : M.operand lhs with
  | error e =>
      rw [hl] at h
      cases h
  | ok l =>
      rw [hl] at h
      exact ⟨l, rfl, Except.ok.inj h⟩

def compareMethods (E : Env) : (n : Nat) → CompareMethods (methods E n)
  | 0 =>
      { operand := fun _ => throw .stackOverflow
        expression := fun _ _ _ => rfl
        getNullables := fun _ _ _ _ _ => rfl
        isNull := fun _ _ h => nomatch h }
  | n + 1 =>
      { operand := (methods E n).expression
        expression := by
          intro lhs op v
          change (do let l ← (methods E n).expression lhs
                     pure (op.name l v) : Except JsError Expr) = _
          cases (methods E n).expression lhs <;> rfl
        getNullables := fun _ _ _ _ _ => rfl
        isNull := by
          intro c ns h
          exact (Except.ok.inj h).symm }

/-- The null tests of a comparison's operand are printed as null tests. -/
def PlainNulls (m : Methods) (c : Clause) : Prop :=
  ∀ ns, m.getNullables c = .ok ns → ∀ n ∈ ns, ∀ key, m.expression (.isNull n.2) = .ok key →
    ∃ e, key = .app .isNull [e]

/-- A name and its clause in a context of comparisons and of their null tests. -/
def Named (m : Methods) (key : Expr) (c : Clause) : Prop :=
  match c with
  | .compare lhs op v => m.expression (.compare lhs op v) = .ok key ∧ PlainNulls m c
  | .isNull _ => ∃ e, key = .app .isNull [e]
  | _ => False

/-- A context of comparisons: no name twice, and each clause under its own. -/
structure Comparisons (m : Methods) (Γ : SynthContext) : Prop where
  nodup : (Γ.clauses.map (·.1)).Nodup
  named : ∀ entry ∈ Γ.clauses, Named m entry.1 entry.2

/-- The expression that names a variable. -/
def SynthContext.name (Γ : SynthContext) (v : Nat) : Option Expr := (Γ.clauses[v]?).map (·.1)

/-- The later context has all variables of the earlier one. -/
def SynthContext.Grows (Γ Γ' : SynthContext) : Prop := Γ.clauses <+: Γ'.clauses

namespace SynthContext

variable {Γ Γ' Γ'' : SynthContext}

theorem Grows.refl : Γ.Grows Γ := List.prefix_refl _

theorem Grows.trans (h : Γ.Grows Γ') (h' : Γ'.Grows Γ'') : Γ.Grows Γ'' :=
  List.IsPrefix.trans h h'

theorem Grows.name {v : Nat} {key : Expr} (h : Γ.Grows Γ') (hv : Γ.name v = some key) :
    Γ'.name v = some key := by
  obtain ⟨entry, hentry, rfl⟩ := Option.map_eq_some_iff.mp hv
  exact Option.map_eq_some_iff.mpr ⟨entry, getElem?_grow h hentry, rfl⟩

theorem Grows.getClause {v : Nat} {c : Clause} (h : Γ.Grows Γ') (hv : Γ.getClause v = some c) :
    Γ'.getClause v = some c := by
  obtain ⟨entry, hentry, rfl⟩ := Option.map_eq_some_iff.mp hv
  exact Option.map_eq_some_iff.mpr ⟨entry, getElem?_grow h hentry, rfl⟩

end SynthContext

section

variable {m : Methods} {Γ Γ' : SynthContext}

theorem Comparisons.inj (h : Comparisons m Γ) {v w : Nat} {key : Expr}
    (hv : Γ.name v = some key) (hw : Γ.name w = some key) : v = w := by
  rw [SynthContext.name, ← List.getElem?_map] at hv hw
  obtain ⟨hlt, _⟩ := List.getElem?_eq_some_iff.mp hv
  exact List.getElem?_inj hlt h.nodup |>.mp (hv.trans hw.symm)

/-- A variable and its name. -/
theorem getVar_ensures (hΓ : Comparisons m Γ) {c : Clause}
    (hc : ∀ key, m.expression c = .ok key → Named m key c) :
    Ensures (m.getVar c) Γ fun v Γ' =>
      Comparisons m Γ' ∧ Γ.Grows Γ' ∧ ∃ key, m.expression c = .ok key ∧ Γ'.name v = some key := by
  unfold Methods.getVar
  refine Ensures.lift_bind fun key hkey => Ensures.get_bind ?_
  cases hfind : Γ.clauses.findIdx? fun entry => decide (entry.1 = key) with
  | some v =>
      obtain ⟨hv, hname, _⟩ := List.findIdx?_eq_some_iff_getElem.mp hfind
      refine Ensures.pure ⟨hΓ, SynthContext.Grows.refl, key, hkey, ?_⟩
      simpa [SynthContext.name, List.getElem?_eq_getElem hv] using hname
  | none =>
      have hnew : key ∉ Γ.clauses.map (·.1) := by
        intro hmem
        obtain ⟨entry, hentry, heq⟩ := List.mem_map.mp hmem
        have hno := List.findIdx?_eq_none_iff.mp hfind entry hentry
        exact of_decide_eq_false hno heq
      refine Ensures.set_bind (Ensures.pure ⟨⟨?_, ?_⟩, List.prefix_append _ _, key, hkey, ?_⟩)
      · rw [List.map_append]
        exact hΓ.nodup.append (List.nodup_singleton _) (by simpa using hnew)
      · exact List.forall_mem_append.mpr
          ⟨hΓ.named, List.forall_mem_singleton.mpr (hc key hkey)⟩
      · simp [SynthContext.name]

end

/-! ## What literals say of operands -/

/-- What literal `k` says of a truth value. -/
def LiteralSays (k : Nat) (t : Option Bool) : Prop :=
  match k with
  | 3 => t = some true
  | 2 => t ≠ some true
  | 1 => t = some false
  | _ => t ≠ some false

/-- The literal is about a comparison, and holds when operands have the given values. -/
def SynthContext.Says (Γ : SynthContext) (obj : Expr → Option Value) (i : Nat) : Prop :=
  ∃ op l v, Γ.name (i / 4) = some (CompareOp.name op l v)
    ∧ LiteralSays (i % 4) (compareTruth op.toOp (obj l) (some v))

/-- All literals of the minterm are about comparisons. -/
def SynthContext.AboutComparisons (Γ : SynthContext) (m : Minterm) : Prop :=
  ∀ i ∈ m, ∃ op l v, Γ.name (i / 4) = some (CompareOp.name op l v)

/-- The variables of the three comparisons of an operand with a value. -/
structure NamedVars (Γ : SynthContext) (l : Expr) (v : Value) (eq gt lt : Nat) : Prop where
  eq : Γ.name eq = some (CompareOp.eq.name l v)
  gt : Γ.name gt = some (CompareOp.gt.name l v)
  lt : Γ.name lt = some (CompareOp.lt.name l v)

section

variable {Γ Γ' : SynthContext} {obj : Expr → Option Value} {l : Expr} {v w : Value}
  {eq gt lt eq2 gt2 lt2 : Nat}

theorem NamedVars.grow (h : NamedVars Γ l v eq gt lt) (hgrow : Γ.Grows Γ') :
    NamedVars Γ' l v eq gt lt :=
  ⟨hgrow.name h.eq, hgrow.name h.gt, hgrow.name h.lt⟩

theorem says_decided {x : Nat} {op : CompareOp} (hx : Γ.name x = some (op.name l v)) (b : Bool) :
    Γ.Says obj (literal x (decided b)) ↔ ∃ y, obj l = some y ∧ (op.Rel y v ↔ b = true) := by
  have hlit : Γ.Says obj (literal x (decided b))
      ↔ LiteralSays (decided b) (compareTruth op.toOp (obj l) (some v)) := by
    rw [SynthContext.Says, literal_div_four x (decided_lt b), literal_mod_four x (decided_lt b), hx]
    constructor
    · rintro ⟨op', l', v', hname, h⟩
      obtain ⟨rfl, rfl, rfl⟩ := CompareOp.name_inj (Option.some.inj hname)
      exact h
    · exact fun h => ⟨op, l, v, rfl, h⟩
  rw [hlit]
  cases obj l with
  | none => cases b <;> simp [decided, LiteralSays, compareTruth]
  | some y => cases b <;> simp [decided, LiteralSays, compareTruth, ← holds_compare]

/-- Two comparisons of one operand that both say what is decided. -/
theorem says_pair {a b : Nat} {op1 op2 : CompareOp} (ha : Γ.name a = some (op1.name l w))
    (hb : Γ.name b = some (op2.name l v)) (b1 b2 : Bool)
    (h : ∀ i ∈ [literal a (decided b1), literal b (decided b2)], Γ.Says obj i) :
    ∃ y, (op1.Rel y w ↔ b1 = true) ∧ (op2.Rel y v ↔ b2 = true) := by
  obtain ⟨y, hy, h1⟩ := (says_decided ha b1).mp (h _ (by simp))
  obtain ⟨y', hy', h2⟩ := (says_decided hb b2).mp (h _ (by simp))
  rw [hy] at hy'
  cases hy'
  exact ⟨y, h1, h2⟩

theorem trichotomy_never (h : NamedVars Γ l v eq gt lt) {m : Minterm}
    (hm : m ∈ trichotomy eq gt lt) : ¬ ∀ i ∈ m, Γ.Says obj i := by
  intro hall
  simp only [trichotomy, List.mem_cons, List.not_mem_nil, or_false] at hm
  obtain rfl | rfl | rfl | rfl := hm
  · obtain ⟨y, h1, h2⟩ := says_pair h.eq h.gt true true hall
    simp only [CompareOp.Rel, iff_true] at h1 h2
    order
  · obtain ⟨y, h1, h2⟩ := says_pair h.lt h.gt true true hall
    simp only [CompareOp.Rel, iff_true] at h1 h2
    order
  · obtain ⟨y, h1, h2⟩ := says_pair h.lt h.eq true true hall
    simp only [CompareOp.Rel, iff_true] at h1 h2
    order
  · obtain ⟨y, hy, h1⟩ := (says_decided h.lt false).mp (hall _ (by simp [decided]))
    obtain ⟨y', hy', h2⟩ := (says_decided h.eq false).mp (hall _ (by simp [decided]))
    obtain ⟨y'', hy'', h3⟩ := (says_decided h.gt false).mp (hall _ (by simp [decided]))
    rw [hy] at hy' hy''
    cases hy'
    cases hy''
    simp only [CompareOp.Rel, Bool.false_eq_true, iff_false] at h1 h2 h3
    order

/-- A minterm of two values in order can only hold if they have one rank, and
if it has `=` or `>` of the first and `=` or `<` of the second value. -/
theorem ordered_says (h : NamedVars Γ l v eq gt lt) (h2 : NamedVars Γ l w eq2 gt2 lt2)
    (hle : w.rank ≤ v.rank) {m : Minterm} (hm : m ∈ ordered eq gt lt eq2 gt2 lt2)
    (hall : ∀ i ∈ m, Γ.Says obj i) :
    w.rank = v.rank ∧ (∃ i ∈ m, ∃ op, op ≠ .lt ∧ Γ.name (i / 4) = some (CompareOp.name op l w))
      ∧ ∃ i ∈ m, ∃ op, op ≠ .gt ∧ Γ.name (i / 4) = some (CompareOp.name op l v) := by
  have hvars : ∀ {a b : Nat} {op1 op2 : CompareOp} (b1 b2 : Bool),
      Γ.name a = some (op1.name l w) → Γ.name b = some (op2.name l v) → op1 ≠ .lt → op2 ≠ .gt →
      (∃ i ∈ [literal a (decided b1), literal b (decided b2)],
          ∃ op, op ≠ .lt ∧ Γ.name (i / 4) = some (CompareOp.name op l w))
        ∧ ∃ i ∈ [literal a (decided b1), literal b (decided b2)],
          ∃ op, op ≠ .gt ∧ Γ.name (i / 4) = some (CompareOp.name op l v) := by
    intro a b op1 op2 b1 b2 ha hb hop1 hop2
    refine ⟨⟨_, List.mem_cons_self .., op1, hop1, ?_⟩, ⟨literal b (decided b2), by simp, op2, hop2, ?_⟩⟩
    · rwa [literal_div_four _ (decided_lt b1)]
    · rwa [literal_div_four _ (decided_lt b2)]
  simp only [ordered, List.mem_cons, List.not_mem_nil, or_false] at hm
  obtain rfl | rfl | rfl | rfl | rfl | rfl | rfl | rfl | rfl := hm
  · refine ⟨?_, hvars false false h2.gt h.lt (by simp) (by simp)⟩
    obtain ⟨y, h1, h2⟩ := says_pair h2.gt h.lt false false hall
    simp only [CompareOp.Rel, Bool.false_eq_true, iff_false] at h1 h2
    order
  · refine ⟨?_, hvars true false h2.eq h.lt (by simp) (by simp)⟩
    obtain ⟨y, h1, h2⟩ := says_pair h2.eq h.lt true false hall
    simp only [CompareOp.Rel, Bool.false_eq_true, iff_true, iff_false] at h1 h2
    order
  · obtain ⟨y, h1, h2⟩ := says_pair h2.lt h.lt true false hall
    simp only [CompareOp.Rel, Bool.false_eq_true, iff_true, iff_false] at h1 h2
    order
  · obtain ⟨y, h1, h2⟩ := says_pair h2.gt h.gt false true hall
    simp only [CompareOp.Rel, Bool.false_eq_true, iff_true, iff_false] at h1 h2
    order
  · refine ⟨?_, hvars false true h2.gt h.eq (by simp) (by simp)⟩
    obtain ⟨y, h1, h2⟩ := says_pair h2.gt h.eq false true hall
    simp only [CompareOp.Rel, Bool.false_eq_true, iff_true, iff_false] at h1 h2
    order
  · obtain ⟨y, h1, h2⟩ := says_pair h2.eq h.gt true true hall
    simp only [CompareOp.Rel, iff_true] at h1 h2
    order
  · refine ⟨?_, hvars true true h2.eq h.eq (by simp) (by simp)⟩
    obtain ⟨y, h1, h2⟩ := says_pair h2.eq h.eq true true hall
    simp only [CompareOp.Rel, iff_true] at h1 h2
    order
  · obtain ⟨y, h1, h2⟩ := says_pair h2.lt h.gt true true hall
    simp only [CompareOp.Rel, iff_true] at h1 h2
    order
  · obtain ⟨y, h1, h2⟩ := says_pair h2.lt h.eq true true hall
    simp only [CompareOp.Rel, iff_true] at h1 h2
    order

/-- Such a minterm does hold of the first of two values of one rank. -/
theorem ordered_holds (h : NamedVars Γ l v eq gt lt) (h2 : NamedVars Γ l w eq2 gt2 lt2)
    (hrank : w.rank = v.rank) {op op' : CompareOp} (hop : op ≠ .lt) (hop' : op' ≠ .gt) :
    ∃ m ∈ ordered eq gt lt eq2 gt2 lt2, (∀ i ∈ m, Γ.Says (fun _ => some w) i)
      ∧ ∀ i ∈ m, Γ.name (i / 4) = some (op.name l w) ∨ Γ.name (i / 4) = some (op'.name l v) := by
  have hholds : ∀ {a b : Nat} (b1 b2 : Bool),
      Γ.name a = some (op.name l w) → Γ.name b = some (op'.name l v) →
      (op.Rel w w ↔ b1 = true) → (op'.Rel w v ↔ b2 = true) →
      (∀ i ∈ [literal a (decided b1), literal b (decided b2)], Γ.Says (fun _ => some w) i)
        ∧ ∀ i ∈ [literal a (decided b1), literal b (decided b2)],
          Γ.name (i / 4) = some (op.name l w) ∨ Γ.name (i / 4) = some (op'.name l v) := by
    intro a b b1 b2 ha hb h1 h2
    simp only [List.forall_mem_cons, List.not_mem_nil, false_imp_iff, implies_true, and_true,
      says_decided ha, says_decided hb, literal_div_four _ (decided_lt b1),
      literal_div_four _ (decided_lt b2)]
    exact ⟨⟨⟨w, rfl, h1⟩, w, rfl, h2⟩, .inl ha, .inr hb⟩
  cases op with
  | lt => exact absurd rfl hop
  | gt =>
      cases op' with
      | gt => exact absurd rfl hop'
      | lt =>
          refine ⟨[literal gt2 (decided false), literal lt (decided false)], by simp [ordered, decided],
            hholds false false h2.gt h.lt ?_ ?_⟩ <;> simp [CompareOp.Rel, hrank]
      | eq =>
          refine ⟨[literal gt2 (decided false), literal eq (decided true)], by simp [ordered, decided],
            hholds false true h2.gt h.eq ?_ ?_⟩ <;> simp [CompareOp.Rel, hrank]
  | eq =>
      cases op' with
      | gt => exact absurd rfl hop'
      | lt =>
          refine ⟨[literal eq2 (decided true), literal lt (decided false)], by simp [ordered, decided],
            hholds true false h2.eq h.lt ?_ ?_⟩ <;> simp [CompareOp.Rel, hrank]
      | eq =>
          refine ⟨[literal eq2 (decided true), literal eq (decided true)], by simp [ordered, decided],
            hholds true true h2.eq h.eq ?_ ?_⟩ <;> simp [CompareOp.Rel, hrank]

end

/-! ## The loops -/

/-- The variable has a name, and if it is a comparison of `l` with `v`, then so
is a variable of the set: one with `=` or `>` unless the comparison is `<`, and
one with `=` or `<` unless it is `>`. -/
def Grounded (Γ : SynthContext) (set : List Nat) (x : Nat) : Prop :=
  ∃ key, Γ.name x = some key ∧ ∀ op l v, key = CompareOp.name op l v →
    (op ≠ .lt → ∃ a ∈ set, ∃ op', op' ≠ .lt ∧ Γ.name a = some (CompareOp.name op' l v))
      ∧ (op ≠ .gt → ∃ a ∈ set, ∃ op', op' ≠ .gt ∧ Γ.name a = some (CompareOp.name op' l v))

/-- A minterm the loop over the sorted values `vs` of the operand `l` has made. -/
def Derived (Γ : SynthContext) (l : Expr) (vs : List Value) (m : Minterm) : Prop :=
  (∃ v eq gt lt, NamedVars Γ l v eq gt lt ∧ m ∈ trichotomy eq gt lt)
    ∨ ∃ w v eq gt lt eq2 gt2 lt2, [w, v].Sublist vs ∧ NamedVars Γ l v eq gt lt
      ∧ NamedVars Γ l w eq2 gt2 lt2 ∧ m ∈ ordered eq gt lt eq2 gt2 lt2

/-- The minterms for `v` and an earlier value `w` are there. -/
def Compared (Γ : SynthContext) (l : Expr) (w v : Value) (ms : Minterms) : Prop :=
  ∃ eq gt lt eq2 gt2 lt2, NamedVars Γ l v eq gt lt ∧ NamedVars Γ l w eq2 gt2 lt2
    ∧ ordered eq gt lt eq2 gt2 lt2 ⊆ ms

section

variable {m : Methods} {Γ Γ' : SynthContext} {l : Expr}

theorem Grounded.of_mem {set : List Nat} {x : Nat} {key : Expr} (hx : x ∈ set)
    (hname : Γ.name x = some key) : Grounded Γ set x := by
  refine ⟨key, hname, ?_⟩
  rintro op l v rfl
  exact ⟨fun hop => ⟨x, hx, op, hop, hname⟩, fun hop => ⟨x, hx, op, hop, hname⟩⟩

theorem Grounded.grow {set : List Nat} {x : Nat} (h : Grounded Γ set x) (hgrow : Γ.Grows Γ') :
    Grounded Γ' set x := by
  obtain ⟨key, hname, hall⟩ := h
  refine ⟨key, hgrow.name hname, fun op l v hkey => ⟨fun hop => ?_, fun hop => ?_⟩⟩
  · obtain ⟨a, ha, op', hop', hname'⟩ := (hall op l v hkey).1 hop
    exact ⟨a, ha, op', hop', hgrow.name hname'⟩
  · obtain ⟨a, ha, op', hop', hname'⟩ := (hall op l v hkey).2 hop
    exact ⟨a, ha, op', hop', hgrow.name hname'⟩

theorem Derived.grow {vs : List Value} {m : Minterm} (h : Derived Γ l vs m)
    (hgrow : Γ.Grows Γ') : Derived Γ' l vs m := by
  obtain ⟨v, eq, gt, lt, hv, hm⟩ | ⟨w, v, eq, gt, lt, eq2, gt2, lt2, hsub, hv, hw, hm⟩ := h
  · exact .inl ⟨v, eq, gt, lt, hv.grow hgrow, hm⟩
  · exact .inr ⟨w, v, eq, gt, lt, eq2, gt2, lt2, hsub, hv.grow hgrow, hw.grow hgrow, hm⟩

theorem Compared.grow {w v : Value} {ms ms' : Minterms} (h : Compared Γ l w v ms)
    (hgrow : Γ.Grows Γ') (hsub : ms ⊆ ms') : Compared Γ' l w v ms' := by
  obtain ⟨eq, gt, lt, eq2, gt2, lt2, hv, hw, hms⟩ := h
  exact ⟨eq, gt, lt, eq2, gt2, lt2, hv.grow hgrow, hw.grow hgrow, List.Subset.trans hms hsub⟩

/-- A comparison whose two siblings are in the set may join it. -/
theorem allowThird_grounded {v : Value} {eq gt lt : Nat} (h : NamedVars Γ l v eq gt lt)
    {set whitelist : List Nat} (hw : ∀ x ∈ whitelist, Grounded Γ set x) :
    ∀ x ∈ Methods.allowThird whitelist eq gt lt, Grounded Γ set x := by
  have hone : ∀ {x : Nat} {op : CompareOp}, x ∈ whitelist → Γ.name x = some (op.name l v) →
      (op ≠ .lt → ∃ a ∈ set, ∃ op', op' ≠ .lt ∧ Γ.name a = some (CompareOp.name op' l v))
        ∧ (op ≠ .gt → ∃ a ∈ set, ∃ op', op' ≠ .gt ∧ Γ.name a = some (CompareOp.name op' l v)) := by
    intro x op hx hname
    obtain ⟨key, hkey, hall⟩ := hw x hx
    rw [hname] at hkey
    exact hall op l v (Option.some.inj hkey).symm
  unfold Methods.allowThird
  split
  · rename_i o ho
    have hin : ∀ x ∈ [lt, eq, gt], x ≠ o → x ∈ whitelist := by
      intro x hx hne
      by_contra hnot
      have hmem : x ∈ [lt, eq, gt].filter fun o => !whitelist.contains o := by
        simpa [hnot] using hx
      rw [ho] at hmem
      exact hne (List.mem_singleton.mp hmem)
    refine List.forall_mem_append.mpr ⟨hw, List.forall_mem_singleton.mpr ?_⟩
    have hmem : o ∈ [lt, eq, gt] := List.mem_of_mem_filter (ho ▸ List.mem_singleton.mpr rfl)
    have hdiff : ∀ {x y : Nat} {op op' : CompareOp}, Γ.name x = some (op.name l v) →
        Γ.name y = some (op'.name l v) → op ≠ op' → x ≠ y := by
      rintro x y op op' hx hy hne rfl
      rw [hx] at hy
      exact hne (CompareOp.name_inj (Option.some.inj hy)).1
    simp only [List.mem_cons, List.not_mem_nil, or_false] at hmem
    obtain rfl | rfl | rfl := hmem
    · have heq := hin eq (by simp) (hdiff h.eq h.lt (by simp))
      refine ⟨_, h.lt, fun op l' v' hname => ?_⟩
      obtain ⟨rfl, rfl, rfl⟩ := CompareOp.name_inj hname
      exact ⟨fun hop => absurd rfl hop, fun _ => (hone heq h.eq).2 (by simp)⟩
    · have hlt := hin lt (by simp) (hdiff h.lt h.eq (by simp))
      have hgt := hin gt (by simp) (hdiff h.gt h.eq (by simp))
      refine ⟨_, h.eq, fun op l' v' hname => ?_⟩
      obtain ⟨rfl, rfl, rfl⟩ := CompareOp.name_inj hname
      exact ⟨fun _ => (hone hgt h.gt).1 (by simp), fun _ => (hone hlt h.lt).2 (by simp)⟩
    · have heq := hin eq (by simp) (hdiff h.eq h.gt (by simp))
      refine ⟨_, h.gt, fun op l' v' hname => ?_⟩
      obtain ⟨rfl, rfl, rfl⟩ := CompareOp.name_inj hname
      exact ⟨fun _ => (hone heq h.eq).1 (by simp), fun hop => absurd rfl hop⟩
  · exact hw

theorem subset_allowThird (whitelist : List Nat) (eq gt lt : Nat) :
    whitelist ⊆ Methods.allowThird whitelist eq gt lt := by
  unfold Methods.allowThird
  split
  · exact List.subset_append_left ..
  · exact List.Subset.refl _

theorem compareVars_ensures (M : CompareMethods m) (hΓ : Comparisons m Γ) {lhs : Clause} {v : Value}
    (hplain : PlainNulls m (.compare lhs .eq v)) :
    Ensures (m.compareVars lhs v) Γ fun vars Γ' => Comparisons m Γ' ∧ Γ.Grows Γ'
      ∧ ∃ l, M.operand lhs = .ok l ∧ NamedVars Γ' l v vars.1 vars.2.1 vars.2.2 := by
  have hnamed : ∀ op key, m.expression (.compare lhs op v) = .ok key →
      Named m key (.compare lhs op v) := by
    intro op key hkey
    refine ⟨hkey, fun ns hns => hplain ns ?_⟩
    rw [M.getNullables lhs .eq v op v, hns]
  unfold Methods.compareVars
  refine Ensures.bind (getVar_ensures hΓ (hnamed .eq)) fun eq Γ₁ h₁ => ?_
  obtain ⟨hΓ₁, hgrow₁, key₁, hkey₁, heq⟩ := h₁
  refine Ensures.bind (getVar_ensures hΓ₁ (hnamed .gt)) fun gt Γ₂ h₂ => ?_
  obtain ⟨hΓ₂, hgrow₂, key₂, hkey₂, hgt⟩ := h₂
  refine Ensures.bind (getVar_ensures hΓ₂ (hnamed .lt)) fun lt Γ₃ h₃ => ?_
  obtain ⟨hΓ₃, hgrow₃, key₃, hkey₃, hlt⟩ := h₃
  obtain ⟨l, hl, rfl⟩ := M.operand_of_expression hkey₁
  obtain ⟨l₂, hl₂, rfl⟩ := M.operand_of_expression hkey₂
  obtain ⟨l₃, hl₃, rfl⟩ := M.operand_of_expression hkey₃
  cases hl.symm.trans hl₂
  cases hl.symm.trans hl₃
  exact Ensures.pure ⟨hΓ₃, (hgrow₁.trans hgrow₂).trans hgrow₃, l, hl,
    (hgrow₂.trans hgrow₃).name heq, hgrow₃.name hgt, hlt⟩

/-- The loop over the values makes minterms of two values in their order, and
all of them. -/
theorem dcValues_ensures (M : CompareMethods m) {lhs : Clause} (hl : M.operand lhs = .ok l)
    (hplain : ∀ v, PlainNulls m (.compare lhs .eq v)) (set : List Nat) (vs : List Value) :
    ∀ (earlier : List Value) (whitelist : List Nat) (Γ : SynthContext), Comparisons m Γ →
      (∀ x ∈ whitelist, Grounded Γ set x) →
      Ensures (m.dcValues lhs earlier whitelist vs) Γ fun r Γ' =>
        Comparisons m Γ' ∧ Γ.Grows Γ' ∧ (∀ x ∈ r.2, Grounded Γ' set x) ∧ whitelist ⊆ r.2
          ∧ (∀ m ∈ r.1, Derived Γ' l (earlier ++ vs) m)
          ∧ ∀ before v after, vs = before ++ v :: after → ∀ w ∈ earlier ++ before,
            Compared Γ' l w v r.1 := by
  induction vs with
  | nil =>
      intro earlier whitelist Γ hΓ hw
      refine Ensures.pure ⟨hΓ, SynthContext.Grows.refl, hw, List.Subset.refl _, by simp, ?_⟩
      intro before v after hnil
      simp at hnil
  | cons v vs ih =>
      intro earlier whitelist Γ hΓ hw
      unfold Methods.dcValues
      refine Ensures.bind (compareVars_ensures M hΓ (hplain v)) fun vars Γ₁ h₁ => ?_
      obtain ⟨eq, gt, lt⟩ := vars
      obtain ⟨hΓ₁, hgrow₁, l₁, hl₁, hvars⟩ := h₁
      rw [hl] at hl₁
      cases hl₁
      dsimp only at hvars ⊢
      have hpairs : Ensures (earlier.mapM fun w => do
          let vars2 ← m.compareVars lhs w
          pure (ordered eq gt lt vars2.1 vars2.2.1 vars2.2.2)) Γ₁ fun pairs Γ' =>
            Comparisons m Γ' ∧ Γ₁.Grows Γ' ∧ List.Forall₂ (fun w ms => ∃ eq2 gt2 lt2,
              NamedVars Γ' l w eq2 gt2 lt2 ∧ ms = ordered eq gt lt eq2 gt2 lt2) earlier pairs := by
        refine Ensures.mapM SynthContext.Grows (fun _ => SynthContext.Grows.refl)
          (fun _ _ _ => SynthContext.Grows.trans) ?_ hΓ₁ ?_
        · rintro w ms Γ Γ' ⟨eq2, gt2, lt2, h2, rfl⟩ hgrow
          exact ⟨eq2, gt2, lt2, h2.grow hgrow, rfl⟩
        · intro w _ Γ hΓ
          refine Ensures.bind (compareVars_ensures M hΓ (hplain w)) fun vars2 Γ₂ h₂ => ?_
          obtain ⟨hΓ₂, hgrow₂, l₂, hl₂, hvars2⟩ := h₂
          rw [hl] at hl₂
          cases hl₂
          exact Ensures.pure ⟨hΓ₂, hgrow₂, _, _, _, hvars2, rfl⟩
      refine Ensures.bind hpairs fun pairs Γ₂ h₂ => ?_
      obtain ⟨hΓ₂, hgrow₂, hpairs⟩ := h₂
      have hvars₂ := hvars.grow hgrow₂
      refine Ensures.bind (ih (earlier ++ [v]) _ Γ₂ hΓ₂
        (allowThird_grounded hvars₂ fun x hx => (hw x hx).grow (hgrow₁.trans hgrow₂)))
        fun r Γ₃ h₃ => ?_
      obtain ⟨rest, whitelist'⟩ := r
      obtain ⟨hΓ₃, hgrow₃, hw₃, hsub, hderived, hcompared⟩ := h₃
      have hv₃ := hvars₂.grow hgrow₃
      refine Ensures.pure ⟨hΓ₃, (hgrow₁.trans hgrow₂).trans hgrow₃, hw₃,
        List.Subset.trans (subset_allowThird ..) hsub, ?_, ?_⟩
      · intro m hm
        rcases List.mem_append.mp hm with hm | hm
        · rcases List.mem_append.mp hm with hm | hm
          · exact .inl ⟨v, eq, gt, lt, hv₃, hm⟩
          · obtain ⟨ms, hms, hm⟩ := List.mem_flatten.mp hm
            obtain ⟨i, hi, rfl⟩ := List.mem_iff_getElem.mp hms
            have hi' : i < earlier.length := hpairs.length_eq ▸ hi
            obtain ⟨eq2, gt2, lt2, h2, heq⟩ := List.forall₂_iff_get.mp hpairs |>.2 i hi' hi
            refine .inr ⟨earlier[i], v, eq, gt, lt, eq2, gt2, lt2, ?_, hv₃, h2.grow hgrow₃, ?_⟩
            · exact (List.singleton_sublist.mpr (List.getElem_mem hi')).append
                (List.singleton_sublist.mpr (List.mem_cons_self ..))
            · rw [List.get_eq_getElem] at heq
              rwa [← heq]
        · have hd := hderived m hm
          rwa [List.append_assoc, List.singleton_append] at hd
      · intro before u after hvs w hwmem
        cases before with
        | nil =>
            obtain ⟨rfl, rfl⟩ := List.cons.inj hvs
            rw [List.append_nil] at hwmem
            obtain ⟨i, hi, rfl⟩ := List.mem_iff_getElem.mp hwmem
            have hi' : i < pairs.length := hpairs.length_eq ▸ hi
            obtain ⟨eq2, gt2, lt2, h2, heq⟩ := List.forall₂_iff_get.mp hpairs |>.2 i hi hi'
            refine ⟨eq, gt, lt, eq2, gt2, lt2, hv₃, h2.grow hgrow₃, fun m hm => ?_⟩
            refine List.mem_append_left _ (List.mem_append_right _ (List.mem_flatten.mpr ⟨_, ?_, hm⟩))
            rw [← heq]
            exact List.getElem_mem hi'
        | cons u' before =>
            obtain ⟨rfl, rfl⟩ := List.cons.inj hvs
            exact (hcompared before u after rfl w (by simpa using hwmem)).grow SynthContext.Grows.refl
              (List.subset_append_right ..)

/-- A group of comparisons of the operand `l` and its sorted right sides. -/
structure OperandGroup (M : CompareMethods m) (g : List Clause) (l : Expr) : Prop where
  operand : M.operand ((g.head?.map lhsOf).getD (.exp Expr.null)) = .ok l
  plain : ∀ v, PlainNulls m (.compare ((g.head?.map lhsOf).getD (.exp Expr.null)) .eq v)

/-- The right sides of a group as the loop goes through them. -/
def sortedValues (g : List Clause) : List Value :=
  (g.filterMap rhsOf).eraseDups.insertionSort valueBefore

theorem dcComparisons_ensures (M : CompareMethods m) (set : List Nat)
    (groups : List (List Clause)) :
    ∀ (whitelist : List Nat) (Γ : SynthContext), Comparisons m Γ →
      (∀ x ∈ whitelist, Grounded Γ set x) → (∀ g ∈ groups, ∃ l, OperandGroup M g l) →
      Ensures (m.dcComparisons whitelist groups) Γ fun r Γ' =>
        Comparisons m Γ' ∧ Γ.Grows Γ' ∧ (∀ x ∈ r.2, Grounded Γ' set x) ∧ whitelist ⊆ r.2
          ∧ (∀ m ∈ r.1, ∃ g ∈ groups, ∃ l, OperandGroup M g l ∧ Derived Γ' l (sortedValues g) m)
          ∧ ∀ g ∈ groups, ∀ l, OperandGroup M g l → ∀ w v, [w, v].Sublist (sortedValues g) →
            Compared Γ' l w v r.1 := by
  induction groups with
  | nil =>
      intro whitelist Γ hΓ hw _
      exact Ensures.pure ⟨hΓ, SynthContext.Grows.refl, hw, List.Subset.refl _, by simp, by simp⟩
  | cons g groups ih =>
      intro whitelist Γ hΓ hw hgroups
      obtain ⟨⟨l, hg⟩, hgroups⟩ := List.forall_mem_cons.mp hgroups
      unfold Methods.dcComparisons
      refine Ensures.bind (dcValues_ensures M hg.operand hg.plain set (sortedValues g) [] whitelist
        Γ hΓ hw) fun r Γ₁ h₁ => ?_
      obtain ⟨here, whitelist₁⟩ := r
      obtain ⟨hΓ₁, hgrow₁, hw₁, hsub₁, hderived₁, hcompared₁⟩ := h₁
      refine Ensures.bind (ih whitelist₁ Γ₁ hΓ₁ hw₁ hgroups) fun r Γ₂ h₂ => ?_
      obtain ⟨rest, whitelist₂⟩ := r
      obtain ⟨hΓ₂, hgrow₂, hw₂, hsub₂, hderived₂, hcompared₂⟩ := h₂
      refine Ensures.pure ⟨hΓ₂, hgrow₁.trans hgrow₂, hw₂, List.Subset.trans hsub₁ hsub₂, ?_, ?_⟩
      · refine List.forall_mem_append.mpr ⟨fun m hm => ?_, fun m hm => ?_⟩
        · exact ⟨g, List.mem_cons_self .., l, hg, (hderived₁ m hm).grow hgrow₂⟩
        · obtain ⟨g', hg', h⟩ := hderived₂ m hm
          exact ⟨g', List.mem_cons_of_mem _ hg', h⟩
      · refine List.forall_mem_cons.mpr ⟨fun l' hg' w v hsub => ?_, fun g' hg' l' hl' w v hsub => ?_⟩
        · have hl' := hg.operand.symm.trans hg'.operand
          cases hl'
          obtain ⟨before, tail, hvs, hwmem, hv⟩ := List.cons_sublist_iff.mp hsub
          obtain ⟨mid, after, rfl⟩ := List.append_of_mem (List.singleton_sublist.mp hv)
          refine (hcompared₁ (before ++ mid) v after (by simpa using hvs) w ?_).grow hgrow₂
            (List.subset_append_left ..)
          exact List.mem_append_right [] (List.mem_append_left _ hwmem)
        · exact (hcompared₂ g' hg' l' hl' w v hsub).grow SynthContext.Grows.refl
            (List.subset_append_right ..)

/-- Some literal of the minterm is about a null test. -/
def AboutNull (Γ : SynthContext) (m : Minterm) : Prop :=
  ∃ i ∈ m, ∃ e, Γ.name (i / 4) = some (.app .isNull [e])

theorem AboutNull.grow {m : Minterm} (h : AboutNull Γ m) (hgrow : Γ.Grows Γ') : AboutNull Γ' m := by
  obtain ⟨i, hi, e, he⟩ := h
  exact ⟨i, hi, e, hgrow.name he⟩

theorem AboutNull.not_aboutComparisons {m : Minterm} (h : AboutNull Γ m) :
    ¬ Γ.AboutComparisons m := by
  intro hall
  obtain ⟨i, hi, e, he⟩ := h
  obtain ⟨op, l, v, hname⟩ := hall i hi
  rw [he] at hname
  simp only [CompareOp.name, Option.some.injEq, Expr.app.injEq] at hname
  exact (Leaf.toOp_ne op).2 hname.1.symm

theorem isNullVars_ensures (M : CompareMethods m) (hΓ : Comparisons m Γ) {v : Nat} {c : Clause}
    (hv : Γ.getClause v = some c) :
    Ensures (m.isNullVars c) Γ fun ns Γ' => Comparisons m Γ' ∧ Γ.Grows Γ'
      ∧ ∀ n ∈ ns, ∃ e, Γ'.name n = some (.app .isNull [e]) := by
  obtain ⟨entry, hentry, rfl⟩ := Option.map_eq_some_iff.mp hv
  have hnamed := hΓ.named entry (List.mem_of_getElem? hentry)
  unfold Methods.isNullVars
  refine Ensures.lift_bind fun ns hns => ?_
  have hplain : ∀ n ∈ ns, ∀ key, m.expression (.isNull n.2) = .ok key →
      ∃ e, key = .app .isNull [e] := by
    obtain ⟨key, c⟩ := entry
    cases c with
    | compare lhs op w => exact hnamed.2 ns hns
    | isNull c => simp [M.isNull c ns hns]
    | not | or | and | case | exp | like => exact hnamed.elim
  refine (Ensures.mapM SynthContext.Grows (fun _ => SynthContext.Grows.refl)
    (fun _ _ _ => SynthContext.Grows.trans)
    (fun _ n Γ Γ' (h : ∃ e, Γ.name n = some (.app .isNull [e])) hgrow =>
      h.imp fun e he => SynthContext.Grows.name hgrow he) hΓ ?_).mono ?_
  · intro n hn Γ hΓ
    refine (getVar_ensures hΓ (hplain n hn)).mono ?_
    rintro x Γ' ⟨hΓ', hgrow, key, hkey, hname⟩
    obtain ⟨e, rfl⟩ := hplain n hn key hkey
    exact ⟨hΓ', hgrow, e, hname⟩
  · rintro xs Γ' ⟨hΓ', hgrow, hxs⟩
    refine ⟨hΓ', hgrow, fun x hx => ?_⟩
    obtain ⟨i, hi, rfl⟩ := List.mem_iff_getElem.mp hx
    exact List.forall₂_iff_get.mp hxs |>.2 i (hxs.length_eq ▸ hi) hi

theorem nullConditions_aboutNull {v : Nat} {ns : List Nat}
    (hns : ∀ n ∈ ns, ∃ e, Γ.name n = some (.app .isNull [e])) :
    ∀ m ∈ Methods.nullConditions v ns, AboutNull Γ m := by
  intro m hm
  unfold Methods.nullConditions at hm
  split_ifs at hm with hnil
  · cases hm
  · rcases List.mem_cons.mp hm with rfl | hm
    · obtain ⟨n, ns, rfl⟩ := List.exists_cons_of_ne_nil hnil
      refine ⟨literal n 2, by simp, ?_⟩
      rw [literal_div_four n (by omega)]
      exact hns n (List.mem_cons_self ..)
    · obtain ⟨n, hn, hm⟩ := List.mem_flatMap.mp hm
      have hmem : literal n 3 ∈ m := by
        simp only [List.mem_cons, List.not_mem_nil, or_false] at hm
        obtain rfl | rfl := hm <;> exact List.mem_cons_self ..
      refine ⟨_, hmem, ?_⟩
      rw [literal_div_four n (by omega)]
      exact hns n hn

theorem idConditions_aboutNull (hΓ : Comparisons m Γ) {v : Nat} {c : Clause}
    (hv : Γ.getClause v = some c) {ids : Minterms} (hids : m.idConditions v c = .ok ids) :
    ∀ m ∈ ids, AboutNull Γ m := by
  obtain ⟨⟨key, c'⟩, hentry, rfl⟩ := Option.map_eq_some_iff.mp hv
  have hnamed := hΓ.named _ (List.mem_of_getElem? hentry)
  cases c' with
  | isNull c =>
      obtain ⟨e, rfl⟩ := hnamed
      dsimp only [Methods.idConditions] at hids
      cases hk : m.expression c with
      | error err =>
          rw [hk] at hids
          cases hids
      | ok k =>
          rw [hk] at hids
          intro m hm
          rw [← Except.ok.inj hids] at hm
          split_ifs at hm
          · rw [List.mem_singleton.mp hm]
            refine ⟨_, List.mem_singleton.mpr rfl, e, ?_⟩
            rw [literal_div_four v (by omega), SynthContext.name, hentry]
            rfl
          · cases hm
  | compare | not | or | and | case | exp | like =>
      cases hids
      simp

/-- A pass over the variables adds null tests to the whitelist, and minterms
about null tests. -/
theorem dcNullPass_ensures (M : CompareMethods m) (todo : List Nat) :
    ∀ (whitelist : List Nat) (Γ : SynthContext), Comparisons m Γ →
      Ensures (m.dcNullPass whitelist todo) Γ fun r Γ' => Comparisons m Γ' ∧ Γ.Grows Γ'
        ∧ (∀ m ∈ r.1, AboutNull Γ' m) ∧ whitelist ⊆ r.2
        ∧ ∀ x ∈ r.2, x ∈ whitelist ∨ ∃ e, Γ'.name x = some (.app .isNull [e]) := by
  induction todo with
  | nil =>
      intro whitelist Γ hΓ
      exact Ensures.pure ⟨hΓ, SynthContext.Grows.refl, by simp, List.Subset.refl _,
        fun x hx => .inl hx⟩
  | cons v todo ih =>
      intro whitelist Γ hΓ
      unfold Methods.dcNullPass
      refine Ensures.get_bind ?_
      cases hv : Γ.getClause v with
      | none => exact Ensures.throw
      | some c =>
          refine Ensures.bind (isNullVars_ensures M hΓ hv) fun ns Γ₁ h₁ => ?_
          obtain ⟨hΓ₁, hgrow₁, hns⟩ := h₁
          refine Ensures.lift_bind fun ids hids => ?_
          refine Ensures.bind (ih _ Γ₁ hΓ₁) fun r Γ₂ h₂ => ?_
          obtain ⟨rest, whitelist'⟩ := r
          obtain ⟨hΓ₂, hgrow₂, hrest, hsub, hnew⟩ := h₂
          have hids' := idConditions_aboutNull hΓ₁ (hgrow₁.getClause hv) hids
          refine Ensures.pure ⟨hΓ₂, hgrow₁.trans hgrow₂, ?_,
            List.Subset.trans (List.subset_append_left ..) hsub, fun x hx => ?_⟩
          · refine List.forall_mem_append.mpr ⟨List.forall_mem_append.mpr ⟨?_, ?_⟩, hrest⟩
            · exact fun m hm => (nullConditions_aboutNull hns m hm).grow hgrow₂
            · exact fun m hm => (hids' m hm).grow hgrow₂
          · rcases hnew x hx with hx | hx
            · rcases List.mem_append.mp hx with hx | hx
              · exact .inl hx
              · obtain ⟨e, he⟩ := hns x (missing_subset _ _ hx)
                exact .inr ⟨e, hgrow₂.name he⟩
            · exact .inr hx

theorem dcNulls_ensures (M : CompareMethods m) (rounds : Nat) :
    ∀ (todo whitelist : List Nat) (Γ : SynthContext), Comparisons m Γ →
      Ensures (m.dcNulls rounds todo whitelist) Γ fun r Γ' => Comparisons m Γ' ∧ Γ.Grows Γ'
        ∧ (∀ m ∈ r.1, AboutNull Γ' m) ∧ whitelist ⊆ r.2
        ∧ ∀ x ∈ r.2, x ∈ whitelist ∨ ∃ e, Γ'.name x = some (.app .isNull [e]) := by
  have hnil : ∀ (rounds : Nat) (whitelist : List Nat) (Γ : SynthContext), Comparisons m Γ →
      Ensures (m.dcNulls rounds [] whitelist) Γ fun r Γ' => Comparisons m Γ' ∧ Γ.Grows Γ'
        ∧ (∀ m ∈ r.1, AboutNull Γ' m) ∧ whitelist ⊆ r.2
        ∧ ∀ x ∈ r.2, x ∈ whitelist ∨ ∃ e, Γ'.name x = some (.app .isNull [e]) := by
    intro rounds whitelist Γ hΓ
    have heq : m.dcNulls rounds [] whitelist = pure ([], whitelist) := by cases rounds <;> rfl
    rw [heq]
    exact Ensures.pure ⟨hΓ, SynthContext.Grows.refl, by simp, List.Subset.refl _,
      fun x hx => .inl hx⟩
  induction rounds with
  | zero =>
      intro todo whitelist Γ hΓ
      cases todo with
      | nil => exact hnil 0 whitelist Γ hΓ
      | cons v todo => exact Ensures.throw
  | succ rounds ih =>
      intro todo whitelist Γ hΓ
      cases todo with
      | nil => exact hnil _ whitelist Γ hΓ
      | cons v todo =>
          unfold Methods.dcNulls
          refine Ensures.bind (dcNullPass_ensures M _ whitelist Γ hΓ) fun r Γ₁ h₁ => ?_
          obtain ⟨here, whitelist₁⟩ := r
          obtain ⟨hΓ₁, hgrow₁, hhere, hsub₁, hnew₁⟩ := h₁
          refine Ensures.bind (ih _ whitelist₁ Γ₁ hΓ₁) fun r Γ₂ h₂ => ?_
          obtain ⟨rest, whitelist₂⟩ := r
          obtain ⟨hΓ₂, hgrow₂, hrest, hsub₂, hnew₂⟩ := h₂
          refine Ensures.pure ⟨hΓ₂, hgrow₁.trans hgrow₂, ?_, List.Subset.trans hsub₁ hsub₂,
            fun x hx => ?_⟩
          · exact List.forall_mem_append.mpr ⟨fun m hm => (hhere m hm).grow hgrow₂, hrest⟩
          · rcases hnew₂ x hx with hx | hx
            · rcases hnew₁ x hx with hx | ⟨e, he⟩
              · exact .inl hx
              · exact .inr ⟨e, hgrow₂.name he⟩
            · exact .inr hx

end

/-! ## The order of the right sides -/

theorem pair_eraseDups {α : Type} [DecidableEq α] {xs : List α} {w v : α} (hw : w ∈ xs) (hv : v ∈ xs)
    (h : xs.idxOf w < xs.idxOf v) : [w, v].Sublist xs.eraseDups := by
  have hsplit : xs = xs.take (xs.idxOf v) ++ xs.drop (xs.idxOf v) := (List.take_append_drop ..).symm
  have hfront : w ∈ xs.take (xs.idxOf v) := (List.mem_take_iff_idxOf_lt hw).mpr h
  have hback : v ∉ xs.take (xs.idxOf v) := fun hmem =>
    lt_irrefl _ ((List.mem_take_iff_idxOf_lt hv).mp hmem)
  have hrest : v ∈ xs.drop (xs.idxOf v) := by
    rw [hsplit] at hv
    exact (List.mem_append.mp hv).resolve_left hback
  rw [hsplit, List.eraseDups_append]
  refine (List.singleton_sublist.mpr (List.mem_eraseDups.mpr hfront)).append
    (List.singleton_sublist.mpr (List.mem_eraseDups.mpr ?_))
  simpa [List.removeAll] using ⟨hrest, hback⟩

theorem not_pair_sublist {α : Type} {xs : List α} (hn : xs.Nodup) {a b : α}
    (h : [a, b].Sublist xs) (h' : [b, a].Sublist xs) : False := by
  induction xs with
  | nil => cases h
  | cons x xs ih =>
      obtain ⟨hx, hn⟩ := List.nodup_cons.mp hn
      cases h with
      | cons _ h =>
          cases h' with
          | cons _ h' => exact ih hn h h'
          | cons_cons _ h' => exact hx (h.subset (by simp))
      | cons_cons _ h =>
          cases h' with
          | cons _ h' => exact hx (h'.subset (by simp))
          | cons_cons _ h' => exact hx (h.subset (by simp))

/-- Values of one rank stay in the order of their first occurrences. -/
theorem pair_sortedValues {g : List Clause} {w v : Value} (hne : w ≠ v)
    (hw : w ∈ g.filterMap rhsOf) (hv : v ∈ g.filterMap rhsOf) (hrank : w.rank = v.rank) :
    [w, v].Sublist (sortedValues g)
      ↔ (g.filterMap rhsOf).idxOf w < (g.filterMap rhsOf).idxOf v := by
  have hsorted : ∀ {a b : Value}, a ∈ g.filterMap rhsOf → b ∈ g.filterMap rhsOf →
      a.rank ≤ b.rank → (g.filterMap rhsOf).idxOf a < (g.filterMap rhsOf).idxOf b →
      [a, b].Sublist (sortedValues g) :=
    fun ha hb hle h =>
      List.pair_sublist_insertionSort (valueBefore_iff.mpr hle) (pair_eraseDups ha hb h)
  constructor
  · intro hsub
    by_contra hnot
    have hlt : (g.filterMap rhsOf).idxOf v < (g.filterMap rhsOf).idxOf w := by
      refine lt_of_le_of_ne (not_lt.mp hnot) fun heq => hne ?_
      exact ((List.idxOf_inj hv).mp heq).symm
    have hnodup : (sortedValues g).Nodup :=
      (List.perm_insertionSort _ _).nodup_iff.mpr (nodup_eraseDups _)
    have hback := hsorted hv hw hrank.ge hlt
    exact not_pair_sublist hnodup hsub hback
  · exact hsorted hw hv hrank.le

/-! ## The don't-care set -/

/-- The right sides of the comparisons with the same operand, in order. -/
def rightSides (m : Methods) (clauses : List Clause) (c : Clause) : List Value :=
  (clauses.filter fun d => decide (m.lhsKey d = m.lhsKey c)).filterMap rhsOf

/-- The comparison of the operand with the value is among the clauses, under its name. -/
def Compares (m : Methods) (clauses : List Clause) (lhs : Clause) (op : CompareOp) (v : Value) : Prop :=
  ∃ lhs', .compare lhs' op v ∈ clauses
    ∧ m.expression (.compare lhs' op v) = m.expression (.compare lhs op v)

/-- Some operand is compared with two values of one rank (TRUE and 1, or FALSE
and 0), with the first by `=` or `>` and with the second by `=` or `<`. -/
def Ambiguous (m : Methods) (clauses : List Clause) : Prop :=
  ∃ lhs op u w v, .compare lhs op u ∈ clauses ∧ w ≠ v ∧ w.compare v = .eq
    ∧ v ∈ rightSides m clauses (.compare lhs op u)
    ∧ (rightSides m clauses (.compare lhs op u)).idxOf w
      < (rightSides m clauses (.compare lhs op u)).idxOf v
    ∧ (∃ op, op ≠ .lt ∧ Compares m clauses lhs op w) ∧ ∃ op, op ≠ .gt ∧ Compares m clauses lhs op v

/-- The clauses of the variables of a set of minterms, in order. -/
def SynthContext.clausesOf (Γ : SynthContext) (ms : Minterms) : List Clause :=
  (ms.flatten.map (· / 4)).eraseDups.filterMap Γ.getClause

section

variable {m : Methods} {Γ Γ' : SynthContext}

/-- The clause of a variable that is named as a comparison. -/
theorem Comparisons.compare (M : CompareMethods m) (hΓ : Comparisons m Γ) {x : Nat} {op : CompareOp}
    {l : Expr} {v : Value} (hx : Γ.name x = some (op.name l v)) :
    ∃ lhs, Γ.getClause x = some (.compare lhs op v) ∧ M.operand lhs = .ok l
      ∧ PlainNulls m (.compare lhs op v) := by
  obtain ⟨⟨key, c⟩, hentry, rfl⟩ := Option.map_eq_some_iff.mp hx
  have hnamed := hΓ.named _ (List.mem_of_getElem? hentry)
  cases c with
  | compare lhs op' v' =>
      obtain ⟨hkey, hplain⟩ := hnamed
      dsimp only at hkey hplain
      obtain ⟨l', hl, hname⟩ := M.operand_of_expression hkey
      obtain ⟨rfl, rfl, rfl⟩ := CompareOp.name_inj hname.symm
      exact ⟨lhs, by rw [SynthContext.getClause, hentry]; rfl, hl, hplain⟩
  | isNull c =>
      obtain ⟨e, he⟩ := hnamed
      simp only [CompareOp.name, Expr.app.injEq] at he
      exact absurd he.1 (Leaf.toOp_ne op).2
  | not | or | and | case | exp | like => exact hnamed.elim

theorem name_of_clause (M : CompareMethods m) (hΓ : Comparisons m Γ) {x : Nat} {lhs : Clause}
    {op : CompareOp} {v : Value} (hx : Γ.getClause x = some (.compare lhs op v)) :
    ∃ l, M.operand lhs = .ok l ∧ Γ.name x = some (op.name l v) := by
  obtain ⟨⟨key, c⟩, hentry, rfl⟩ := Option.map_eq_some_iff.mp hx
  obtain ⟨hkey, _⟩ := hΓ.named _ (List.mem_of_getElem? hentry)
  obtain ⟨l, hl, hname⟩ := M.operand_of_expression hkey
  refine ⟨l, hl, ?_⟩
  rw [SynthContext.name, hentry]
  exact congrArg some hname.symm

theorem lhsKey_compare_eq (M : CompareMethods m) {lhs : Clause} {op : CompareOp} {v : Value}
    {k : Methods.LhsKey} (hk : m.lhsKey (.compare lhs op v) = .ok k) :
    M.operand lhs = .ok k.expression := by
  obtain ⟨text, -, hk⟩ := bind_eq_ok_iff.mp hk
  obtain ⟨e, he, hk⟩ := bind_eq_ok_iff.mp hk
  obtain ⟨l, hl, rfl⟩ := M.operand_of_expression he
  rw [← Except.ok.inj hk]
  exact hl

/-- What groups the clauses have been put into. -/
theorem groupByLhs_ok {clauses : List Clause} {groups : List (List Clause)}
    (h : m.groupByLhs clauses = .ok groups) :
    ∃ key : Clause → Methods.LhsKey, (∀ c ∈ clauses, m.lhsKey c = .ok (key c))
      ∧ groups = (clauses.map key).eraseDups.map fun k =>
          clauses.filter fun c => decide (key c = k) := by
  have hall : ∀ c ∈ clauses, ∃ k, m.lhsKey c = .ok k := by
    intro c hc
    obtain ⟨keyed, hkeyed, -⟩ := bind_eq_ok_iff.mp h
    obtain ⟨kc, -, hkc⟩ := exists_right_of_forall₂ (mapM_results hkeyed) hc
    obtain ⟨k, hk, -⟩ := bind_eq_ok_iff.mp hkc
    exact ⟨k, hk⟩
  have hkeys : ∀ c ∈ clauses, m.lhsKey c
      = .ok (((m.lhsKey c).toOption).getD ⟨[], Expr.null⟩) := by
    intro c hc
    obtain ⟨k, hk⟩ := hall c hc
    rw [hk]
    rfl
  refine ⟨_, hkeys, ?_⟩
  rw [groupByLhs_eq hkeys] at h
  exact (Except.ok.inj h).symm

/-- What the group of a comparison is: its operand, and its right sides. -/
theorem group_of_compare (M : CompareMethods m) (hΓ : Comparisons m Γ) {set : List Nat}
    {key : Clause → Methods.LhsKey}
    (hkeys : ∀ c ∈ set.filterMap Γ.getClause, m.lhsKey c = .ok (key c))
    (hset : ∀ x ∈ set, ∃ op l v, Γ.name x = some (CompareOp.name op l v))
    {c : Clause} (hc : c ∈ set.filterMap Γ.getClause) :
    OperandGroup M ((set.filterMap Γ.getClause).filter fun d => decide (key d = key c))
      (key c).expression := by
  have hmem : c ∈ (set.filterMap Γ.getClause).filter fun d => decide (key d = key c) :=
    List.mem_filter.mpr ⟨hc, decide_eq_true rfl⟩
  obtain ⟨d, rest, hd⟩ := List.exists_cons_of_ne_nil (List.ne_nil_of_mem hmem)
  obtain ⟨hdmem, hdkey⟩ := List.mem_filter.mp (hd ▸ List.mem_cons_self (a := d) (l := rest))
  obtain ⟨x, hx, hdx⟩ := List.mem_filterMap.mp hdmem
  obtain ⟨op, l, v, hname⟩ := hset x hx
  obtain ⟨lhs, hclause, hl, hplain⟩ := hΓ.compare M hname
  rw [hdx] at hclause
  cases hclause
  have hkey := lhsKey_compare_eq M (hkeys _ hdmem)
  rw [of_decide_eq_true hdkey] at hkey
  refine ⟨by rw [hd]; exact hkey, fun u ns hns => ?_⟩
  rw [hd] at hns
  refine hplain ns ?_
  rw [M.getNullables lhs op v .eq u]
  exact hns

theorem rightSides_eq {clauses : List Clause} {key : Clause → Methods.LhsKey}
    (hkeys : ∀ c ∈ clauses, m.lhsKey c = .ok (key c)) {c : Clause} (hc : c ∈ clauses) :
    rightSides m clauses c = (clauses.filter fun d => decide (key d = key c)).filterMap rhsOf := by
  unfold rightSides
  congr 1
  refine List.filter_congr fun d hd => ?_
  rw [hkeys d hd, hkeys c hc]
  simp

theorem mem_sortedValues {g : List Clause} {v : Value} :
    v ∈ sortedValues g ↔ v ∈ g.filterMap rhsOf := by
  rw [sortedValues, List.mem_insertionSort, List.mem_eraseDups]

/-- A minterm of the comparisons of a group that holds for some values of the
operands gives an ambiguous operand. -/
theorem ambiguous_of_says (M : CompareMethods m) (hΓ : Comparisons m Γ) (hgrow : Γ.Grows Γ')
    {set : List Nat} {key : Clause → Methods.LhsKey}
    (hkeys : ∀ c ∈ set.filterMap Γ.getClause, m.lhsKey c = .ok (key c))
    (hset : ∀ x ∈ set, ∃ op l v, Γ.name x = some (CompareOp.name op l v))
    {c : Clause} (hc : c ∈ set.filterMap Γ.getClause) {mt : Minterm}
    (hd : Derived Γ' (key c).expression
      (sortedValues ((set.filterMap Γ.getClause).filter fun d => decide (key d = key c))) mt)
    (hground : ∀ i ∈ mt, Grounded Γ' set (i / 4)) {obj : Expr → Option Value}
    (hall : ∀ i ∈ mt, Γ'.Says obj i) : Ambiguous m (set.filterMap Γ.getClause) := by
  obtain ⟨v, eq, gt, lt, hv, hmt⟩ | ⟨w, v, eq, gt, lt, eq2, gt2, lt2, hsub, hv, hw, hmt⟩ := hd
  · exact absurd hall (trichotomy_never hv hmt)
  have hsorted := (List.pairwise_insertionSort valueBefore _).sublist hsub
  have hle : w.rank ≤ v.rank := valueBefore_iff.mp (List.pairwise_pair.mp hsorted)
  obtain ⟨hrank, ⟨i, hi, op, hop, hiname⟩, j, hj, op', hop', hjname⟩ :=
    ordered_says hv hw hle hmt hall
  have hnodup : (sortedValues ((set.filterMap Γ.getClause).filter
      fun d => decide (key d = key c))).Nodup :=
    (List.perm_insertionSort _ _).nodup_iff.mpr (nodup_eraseDups _)
  have hne : w ≠ v := fun heq => List.nodup_iff_sublist.mp hnodup v (heq ▸ hsub)
  obtain ⟨x, hx, hcx⟩ := List.mem_filterMap.mp hc
  obtain ⟨op₀, l₀, u, hname₀⟩ := hset x hx
  obtain ⟨lhs, hclause, _⟩ := hΓ.compare M hname₀
  rw [hcx] at hclause
  cases hclause
  have hl := lhsKey_compare_eq M (hkeys _ hc)
  -- the comparisons of the minterm are grounded in clauses of the set
  have hlisted : ∀ {a : Nat} {op : CompareOp} {u' : Value}, a ∈ set →
      Γ'.name a = some (op.name (key (.compare lhs op₀ u)).expression u') →
      Compares m (set.filterMap Γ.getClause) lhs op u' := by
    intro a op u' ha hname
    obtain ⟨op₁, l₁, u₁, hname₁⟩ := hset a ha
    have heq := hgrow.name hname₁
    rw [hname] at heq
    obtain ⟨rfl, rfl, rfl⟩ := CompareOp.name_inj (Option.some.inj heq)
    obtain ⟨lhs', hclause, hl', _⟩ := hΓ.compare M hname₁
    refine ⟨lhs', List.mem_filterMap.mpr ⟨a, ha, hclause⟩, ?_⟩
    rw [M.expression, M.expression, hl, hl']
  have hwmem := mem_sortedValues.mp (hsub.subset (List.mem_cons_self ..))
  have hvmem := mem_sortedValues.mp (hsub.subset (List.mem_cons_of_mem _ (List.mem_cons_self ..)))
  refine ⟨lhs, op₀, u, w, v, hc, hne, Value.compare_eq_eq.mpr hrank, ?_, ?_, ?_, ?_⟩
  · rwa [rightSides_eq hkeys hc]
  · rw [rightSides_eq hkeys hc]
    exact (pair_sortedValues hne hwmem hvmem hrank).mp hsub
  · obtain ⟨k, hk, hgrounded⟩ := hground i hi
    rw [hiname] at hk
    obtain ⟨a, ha, op₁, hop₁, hname₁⟩ := (hgrounded op _ w (Option.some.inj hk).symm).1 hop
    exact ⟨op₁, hop₁, hlisted ha hname₁⟩
  · obtain ⟨k, hk, hgrounded⟩ := hground j hj
    rw [hjname] at hk
    obtain ⟨a, ha, op₁, hop₁, hname₁⟩ := (hgrounded op' _ v (Option.some.inj hk).symm).2 hop'
    exact ⟨op₁, hop₁, hlisted ha hname₁⟩

/-- An ambiguous operand gives a minterm of the comparisons that holds for some
values of the operands, and has its variables in the set. -/
theorem says_of_ambiguous (M : CompareMethods m) (hΓ : Comparisons m Γ) (hΓ' : Comparisons m Γ')
    (hgrow : Γ.Grows Γ') {set : List Nat} {key : Clause → Methods.LhsKey}
    (hkeys : ∀ c ∈ set.filterMap Γ.getClause, m.lhsKey c = .ok (key c)) {ms : Minterms}
    (hcompared : ∀ c ∈ set.filterMap Γ.getClause, ∀ w v, [w, v].Sublist
      (sortedValues ((set.filterMap Γ.getClause).filter fun d => decide (key d = key c))) →
      Compared Γ' (key c).expression w v ms)
    (h : Ambiguous m (set.filterMap Γ.getClause)) :
    ∃ mt ∈ ms, (∃ obj, ∀ i ∈ mt, Γ'.Says obj i) ∧ ∀ i ∈ mt, i / 4 ∈ set := by
  obtain ⟨lhs, op₀, u, w, v, hc, hne, heq, hvmem, hidx, ⟨op, hop, hlw⟩, op', hop', hlv⟩ := h
  have hrank := Value.compare_eq_eq.mp heq
  rw [rightSides_eq hkeys hc] at hvmem hidx
  have hwmem : w ∈ ((set.filterMap Γ.getClause).filter
      fun d => decide (key d = key (.compare lhs op₀ u))).filterMap rhsOf :=
    List.idxOf_lt_length_iff.mp (hidx.trans (List.idxOf_lt_length_iff.mpr hvmem))
  have hsub := (pair_sortedValues hne hwmem hvmem hrank).mpr hidx
  obtain ⟨eq, gt, lt, eq2, gt2, lt2, hv, hw, hms⟩ := hcompared _ hc w v hsub
  obtain ⟨mt, hmt, hsays, hnames⟩ := ordered_holds hv hw hrank hop hop'
  have hl := lhsKey_compare_eq M (hkeys _ hc)
  -- a listed comparison is a variable of the set
  have hin : ∀ {i : Nat} {op : CompareOp} {u' : Value},
      Compares m (set.filterMap Γ.getClause) lhs op u' →
      Γ'.name (i / 4) = some (op.name (key (.compare lhs op₀ u)).expression u') → i / 4 ∈ set := by
    rintro i op u' ⟨lhs', hmem, hexp⟩ hname
    obtain ⟨a, ha, hclause⟩ := List.mem_filterMap.mp hmem
    obtain ⟨l', hl', hname'⟩ := name_of_clause M hΓ hclause
    rw [M.expression, M.expression, hl, hl'] at hexp
    obtain ⟨_, rfl, _⟩ := CompareOp.name_inj (Except.ok.inj hexp)
    rwa [hΓ'.inj hname (hgrow.name hname')]
  refine ⟨mt, hms hmt, ⟨_, hsays⟩, fun i hi => ?_⟩
  rcases hnames i hi with hname | hname
  · exact hin hlw hname
  · exact hin hlv hname

/-- The don't-cares of comparisons are impossible exactly if no operand is
compared ambiguously. -/
theorem getDcSet_ensures (E : Env) (M : CompareMethods m) (hΓ : Comparisons m Γ) {ms : Minterms}
    (hms : ∀ mt ∈ ms, Γ.AboutComparisons mt) :
    Ensures (m.getDcSet E ms) Γ fun dc Γ' =>
      (∀ mt ∈ dc, Γ'.AboutComparisons mt → ∀ obj, ¬ ∀ i ∈ mt, Γ'.Says obj i)
        ↔ ¬ Ambiguous m (Γ.clausesOf ms) := by
  unfold Methods.getDcSet
  have hset : ∀ x ∈ (ms.flatten.map (· / 4)).eraseDups,
      ∃ op l v, Γ.name x = some (CompareOp.name op l v) := by
    intro x hx
    obtain ⟨i, hi, rfl⟩ := List.mem_map.mp (List.mem_eraseDups.mp hx)
    obtain ⟨mt, hmt, hi⟩ := List.mem_flatten.mp hi
    exact hms mt hmt i hi
  unfold SynthContext.clausesOf
  generalize (ms.flatten.map (· / 4)).eraseDups = set at hset
  have hclauses : ∀ c ∈ set.filterMap Γ.getClause, ∃ lhs op v, c = .compare lhs op v := by
    intro c hc
    obtain ⟨x, hx, hcx⟩ := List.mem_filterMap.mp hc
    obtain ⟨op, l, v, hname⟩ := hset x hx
    obtain ⟨lhs, hclause, _⟩ := hΓ.compare M hname
    rw [hcx] at hclause
    exact ⟨lhs, op, v, Option.some.inj hclause⟩
  have hcompares : (set.filterMap Γ.getClause).filter Methods.isCompare
      = set.filterMap Γ.getClause := by
    refine List.filter_eq_self.mpr fun c hc => ?_
    obtain ⟨lhs, op, v, rfl⟩ := hclauses c hc
    rfl
  have hlikes : (set.filterMap Γ.getClause).filter Methods.isLike = [] := by
    refine List.filter_eq_nil_iff.mpr fun c hc => ?_
    obtain ⟨lhs, op, v, rfl⟩ := hclauses c hc
    simp [Methods.isLike]
  unfold Methods.clausesOf
  refine Ensures.get_bind ?_
  change Ensures (_ >>= _) Γ _
  simp only [hcompares, hlikes]
  refine Ensures.lift_bind fun groups hgroups => ?_
  obtain ⟨key, hkeys, rfl⟩ := groupByLhs_ok hgroups
  have hgroup : ∀ c ∈ set.filterMap Γ.getClause, OperandGroup M
      ((set.filterMap Γ.getClause).filter fun d => decide (key d = key c)) (key c).expression :=
    fun c hc => group_of_compare M hΓ hkeys hset hc
  refine Ensures.bind (dcComparisons_ensures M set _ set Γ hΓ ?_ ?_) fun r Γ₁ h₁ => ?_
  · intro x hx
    obtain ⟨op, l, v, hname⟩ := hset x hx
    exact Grounded.of_mem hx hname
  · intro g hg
    obtain ⟨k, hk, rfl⟩ := List.mem_map.mp hg
    obtain ⟨c, hc, rfl⟩ := List.mem_map.mp (List.mem_eraseDups.mp hk)
    exact ⟨_, hgroup c hc⟩
  obtain ⟨comparisons, whitelist⟩ := r
  obtain ⟨hΓ₁, hgrow₁, hgrounded, hsub₁, hderived, hcompared⟩ := h₁
  refine Ensures.lift_bind fun groups' hgroups' => ?_
  have hnone : groups' = [] := (Except.ok.inj hgroups').symm
  subst hnone
  change Ensures (pure [] >>= _) Γ₁ _
  rw [pure_bind]
  refine Ensures.bind (dcNulls_ensures M m.rounds whitelist whitelist Γ₁ hΓ₁) fun r Γ₂ h₂ => ?_
  obtain ⟨nulls, whitelist'⟩ := r
  obtain ⟨hΓ₂, hgrow₂, hnulls, hsub₂, hnew⟩ := h₂
  refine Ensures.pure ⟨fun hsound hambiguous => ?_, fun hnot mt hmt habout obj hall => hnot ?_⟩
  · obtain ⟨mt, hmt, ⟨obj, hall⟩, hin⟩ := says_of_ambiguous M hΓ hΓ₁ hgrow₁ hkeys
      (fun c hc w v hsub => hcompared _ (List.mem_map.mpr
        ⟨_, List.mem_eraseDups.mpr (List.mem_map_of_mem hc), rfl⟩) _ (hgroup c hc) w v hsub)
      hambiguous
    refine hsound mt (List.mem_filter.mpr ⟨?_, ?_⟩) ?_ obj fun i hi => ?_
    · exact List.mem_append_left _ (List.mem_append_left _ hmt)
    · refine List.all_eq_true.mpr fun i hi => ?_
      simpa using hsub₂ (hsub₁ (hin i hi))
    · intro i hi
      obtain ⟨op, l, v, hname⟩ := hset _ (hin i hi)
      exact ⟨op, l, v, hgrow₂.name (hgrow₁.name hname)⟩
    · obtain ⟨op, l, v, hname, hsays⟩ := hall i hi
      exact ⟨op, l, v, hgrow₂.name hname, hsays⟩
  · obtain ⟨hmem, hwhite⟩ := List.mem_filter.mp hmt
    rcases List.mem_append.mp hmem with hmem | hmem
    · rw [List.flatten_nil, List.append_nil] at hmem
      obtain ⟨g, hg, l, hgl, hd⟩ := hderived mt hmem
      obtain ⟨k, hk, rfl⟩ := List.mem_map.mp hg
      obtain ⟨c, hc, rfl⟩ := List.mem_map.mp (List.mem_eraseDups.mp hk)
      cases hgl.operand.symm.trans (hgroup c hc).operand
      refine ambiguous_of_says M hΓ (hgrow₁.trans hgrow₂) hkeys hset hc (hd.grow hgrow₂) ?_ hall
      intro i hi
      have hin : i / 4 ∈ whitelist' := by simpa using List.all_eq_true.mp hwhite i hi
      rcases hnew _ hin with hin | ⟨e, he⟩
      · exact (hgrounded _ hin).grow hgrow₂
      · obtain ⟨op, l, v, hname⟩ := habout i hi
        rw [he] at hname
        simp only [CompareOp.name, Option.some.injEq, Expr.app.injEq] at hname
        exact absurd hname.1.symm (Leaf.toOp_ne op).2
    · exact absurd habout (hnulls mt hmem).not_aboutComparisons

end

/-! ## Null tests of expressions -/

mutual

/-- What a null test is made of is a dependency of itself. -/
theorem mem_findIsNullDeps {d : Expr} : ∀ e : Expr, d ∈ findIsNullDeps e →
    d ∈ findIsNullDeps d ∧ d.isArray = true
  | .lit v, h => by simp [findIsNullDeps] at h
  | .app op args, h => by
      have hself : d = .app op args → d ∈ findIsNullDeps (.app op args) →
          d ∈ findIsNullDeps d ∧ d.isArray = true := by
        rintro rfl hmem
        exact ⟨hmem, rfl⟩
      have hmem := h
      rw [findIsNullDeps] at hmem
      split_ifs at hmem
      · cases hmem
      · cases hmem
      · rcases List.mem_append.mp hmem with hmem | hmem
        · exact mem_depsBetween 1 1 args hmem
        · exact hself (List.mem_singleton.mp hmem) h
      · exact mem_depsBetween 1 2 args hmem
      · exact hself (List.mem_singleton.mp hmem) h
      · exact hself (List.mem_singleton.mp hmem) h
      · exact mem_depsBetween 0 args.length args hmem

theorem mem_depsBetween {d : Expr} : ∀ (skip count : Nat) (es : List Expr),
    d ∈ depsBetween skip count es → d ∈ findIsNullDeps d ∧ d.isArray = true
  | _, _, [], h => by simp [depsBetween] at h
  | skip + 1, count, _ :: es, h => mem_depsBetween skip count es (by simpa [depsBetween] using h)
  | 0, count + 1, e :: es, h => by
      rw [depsBetween] at h
      rcases List.mem_append.mp h with h | h
      · exact mem_findIsNullDeps e h
      · exact mem_depsBetween 0 count es h
  | 0, 0, _ :: _, h => by simp [depsBetween] at h

end

section

variable (E : Env) {d : Expr}

theorem getNullables_exp_eq {n : Nat} {ns : List (Bool × Clause)}
    (h : (methods E n).getNullables (.exp d) = .ok ns) :
    ns = (findIsNullDeps d).map fun e => if e = d then (true, .exp d) else (false, .exp e) := by
  match n with
  | 0 => cases h
  | 1 => cases h
  | n + 2 => exact (Except.ok.inj h).symm

theorem nullMinterms_exp (harray : d.isArray = true) (n : Nat) :
    Ensures ((methods E n).true' (.isNull (.exp d))) {} fun ms Γ =>
      ms = [[literal 0 0, literal 0 2]] ∧ Γ.getClause 0 = some (.exp d) := by
  match n with
  | 0 => exact fun _ _ hrun => nomatch hrun
  | 1 => exact fun _ _ hrun => nomatch hrun
  | n + 2 =>
      change Ensures (if d.isArray then (methods E n).getMinterms (.exp d) none
        else pure (if d = Expr.null then [[]] else [])) {} _
      rw [if_pos harray]
      unfold Methods.getMinterms Methods.getVar
      rw [bind_assoc]
      refine Ensures.lift_bind fun key _ => ?_
      rw [bind_assoc]
      refine Ensures.get_bind ?_
      rintro ms Γ hrun
      cases hrun
      exact ⟨rfl, rfl⟩

/-- The null test of an expression with further dependencies cannot be printed. -/
theorem isNull_unprintable (hd : d ∈ findIsNullDeps d) (harray : d.isArray = true)
    (hmore : ∀ e, findIsNullDeps d ≠ [e]) (n : Nat) :
    ∀ key, (methods E n).expression (.isNull (.exp d)) ≠ .ok key := by
  induction n with
  | zero => exact fun key h => nomatch h
  | succ n ih =>
      intro key h
      have hnulls : ∀ Γ, Ensures ((methods E n).isNullVars (.exp d)) Γ fun _ _ => False := by
        intro Γ
        unfold Methods.isNullVars
        refine Ensures.lift_bind fun ns hns => ?_
        have hmem : (true, Clause.exp d) ∈ ns := by
          rw [getNullables_exp_eq E hns]
          exact List.mem_map.mpr ⟨d, hd, if_pos rfl⟩
        refine Ensures.mapM_never (fun Γ => ?_) hmem Γ
        unfold Methods.getVar
        exact Ensures.lift_bind fun k hk => absurd hk (ih k)
      -- printing it needs its null tests once more
      have hsynth : ∀ e, Methods.synthesize E (methods E n) (.isNull (.exp d)) ≠ .ok e := by
        intro e he
        have hnever : Ensures (do
            let minterms ← (methods E n).true' (.isNull (.exp d))
            let minimized ← Methods.minimize E (methods E n) minterms []
            (methods E n).toExpression minimized) {} fun _ _ => False := by
          refine Ensures.bind (nullMinterms_exp E harray n) fun ms Γ hms => ?_
          obtain ⟨rfl, hclause⟩ := hms
          refine Ensures.bind ?_ fun _ _ => False.elim
          unfold Methods.minimize Methods.sanitizeMinterms
          refine Ensures.bind (Ensures.bind ?_ fun _ _ => False.elim) fun _ _ => False.elim
          rw [List.mapM_cons]
          refine Ensures.bind ?_ fun _ _ => False.elim
          change Ensures ((methods E n).sanitizeVars [0, 2] [0] >>= _) Γ _
          refine Ensures.bind (Ensures.bind ?_ fun _ _ => False.elim) fun _ _ => False.elim
          unfold Methods.sanitizeVar
          rw [if_neg (by decide), if_neg (by decide)]
          refine Ensures.get_bind ?_
          rw [hclause]
          dsimp only
          rw [if_neg (by decide)]
          exact Ensures.bind (hnulls Γ) fun _ _ => False.elim
        obtain ⟨r, hrun, -⟩ := bind_eq_ok_iff.mp he
        exact hnever r.1 r.2 hrun
      obtain ⟨ns, hns, h⟩ := bind_eq_ok_iff.mp h
      rw [getNullables_exp_eq E hns] at h
      match hdeps : findIsNullDeps d with
      | [] => simp [hdeps] at hd
      | [e] => exact hmore e hdeps
      | e :: e' :: es =>
          rw [hdeps] at h
          refine hsynth key ?_
          cases hsame : (decide (e = d)) <;> simpa [hsame] using h

theorem isNull_printed (hd : d ∈ findIsNullDeps d) (harray : d.isArray = true) {n : Nat}
    {key : Expr} (h : (methods E n).expression (.isNull (.exp d)) = .ok key) :
    ∃ e, key = .app .isNull [e] := by
  by_cases hone : ∃ e, findIsNullDeps d = [e]
  · obtain ⟨e, he⟩ := hone
    have hde : d = e := by simpa [he] using hd
    subst hde
    cases n with
    | zero => cases h
    | succ n =>
        obtain ⟨ns, hns, h⟩ := bind_eq_ok_iff.mp h
        rw [getNullables_exp_eq E hns, he] at h
        simp only [List.map_cons, List.map_nil] at h
        obtain ⟨e, -, h⟩ := bind_eq_ok_iff.mp h
        exact ⟨e, (Except.ok.inj h).symm⟩
  · exact absurd h (isNull_unprintable E hd harray (fun e he => hone ⟨e, he⟩) n key)

/-- Every operand that is an expression has plain null tests. -/
theorem plainNulls_exp (n : Nat) (e : Expr) (op : CompareOp) (v : Value) :
    PlainNulls (methods E n) (.compare (.exp e) op v) := by
  intro ns hns n' hn' key hkey
  match n with
  | 0 => cases hns
  | n + 1 =>
      obtain ⟨deps, hlhs, hns⟩ := bind_eq_ok_iff.mp hns
      rw [getNullables_exp_eq E hlhs] at hns
      rw [← Except.ok.inj hns, List.map_map] at hn'
      obtain ⟨d, hd, rfl⟩ := List.mem_map.mp hn'
      obtain ⟨hself, harray⟩ := mem_findIsNullDeps e hd
      refine isNull_printed E hself harray (n := n + 1) ?_
      by_cases hde : d = e
      · simpa [hde] using hkey
      · simpa [hde] using hkey

end

/-! ## Any comparisons -/

/-- Whatever operands are compared with, in any context of comparisons. -/
theorem comparisons_impossible (E : Env) (n : Nat) {Γ Γ' : SynthContext} {ms dc : Minterms}
    (hΓ : Comparisons (methods E n) Γ) (hms : ∀ mt ∈ ms, Γ.AboutComparisons mt)
    (hrun : ((methods E n).getDcSet E ms).run Γ = .ok (dc, Γ')) :
    (∀ mt ∈ dc, Γ'.AboutComparisons mt → ∀ obj, ¬ ∀ i ∈ mt, Γ'.Says obj i)
      ↔ ¬ Ambiguous (methods E n) (Γ.clausesOf ms) :=
  getDcSet_ensures E (compareMethods E n) hΓ hms dc Γ' hrun

/-- `uptime < TRUE` and `uptime > 1`. -/
def aboveBoolean : SynthContext where
  clauses :=
    [(CompareOp.lt.name (.ofParam (js "uptime")) (.bool true),
        .compare (.exp (.ofParam (js "uptime"))) .lt (.bool true)),
      (CompareOp.gt.name (.ofParam (js "uptime")) (.num (1 : ℤ)),
        .compare (.exp (.ofParam (js "uptime"))) .gt (.num (1 : ℤ)))]

/-- `uptime = TRUE` and `uptime = 1`. -/
def equalBoolean : SynthContext where
  clauses :=
    [(CompareOp.eq.name (.ofParam (js "uptime")) (.bool true),
        .compare (.exp (.ofParam (js "uptime"))) .eq (.bool true)),
      (CompareOp.eq.name (.ofParam (js "uptime")) (.num (1 : ℤ)),
        .compare (.exp (.ofParam (js "uptime"))) .eq (.num (1 : ℤ)))]

theorem aboveBoolean_comparisons : Comparisons (methods plainEnv 6) aboveBoolean where
  nodup := by decide +kernel
  named := by
    refine List.forall_mem_cons.mpr ⟨⟨rfl, plainNulls_exp plainEnv 6 _ _ _⟩, ?_⟩
    exact List.forall_mem_singleton.mpr ⟨rfl, plainNulls_exp plainEnv 6 _ _ _⟩

theorem aboveBoolean_unambiguous :
    ¬ Ambiguous (methods plainEnv 6) (aboveBoolean.clausesOf [[literal 0 3, literal 1 3]]) := by
  change ¬ Ambiguous _ (aboveBoolean.clauses.map (·.2))
  rintro ⟨lhs, op, u, w, v, hc, _, _, _, hidx, ⟨op1, hop1, lhs1, h1, _⟩, op2, hop2, lhs2, h2, _⟩
  have hw : w = .num (1 : ℤ) := by
    simp only [aboveBoolean, List.map_cons, List.map_nil, List.mem_cons, Clause.compare.injEq,
      List.not_mem_nil, or_false] at h1
    obtain ⟨_, rfl, _⟩ | ⟨_, _, rfl⟩ := h1
    · exact absurd rfl hop1
    · rfl
  have hv : v = .bool true := by
    simp only [aboveBoolean, List.map_cons, List.map_nil, List.mem_cons, Clause.compare.injEq,
      List.not_mem_nil, or_false] at h2
    obtain ⟨_, _, rfl⟩ | ⟨_, rfl, _⟩ := h2
    · rfl
    · exact absurd rfl hop2
  have hsides : rightSides (methods plainEnv 6) (aboveBoolean.clauses.map (·.2)) (.compare lhs op u)
      = [.bool true, .num (1 : ℤ)] := by
    simp only [aboveBoolean, List.map_cons, List.map_nil, List.mem_cons, Clause.compare.injEq,
      List.not_mem_nil, or_false] at hc
    obtain ⟨rfl, rfl, rfl⟩ | ⟨rfl, rfl, rfl⟩ := hc <;> rfl
  rw [hsides, hw, hv] at hidx
  exact absurd hidx (by decide +kernel)

/-- `comparisons_impossible` where the smaller value is only compared by `<`. -/
theorem comparisons_impossible_above :
    ∃ dc Γ', ((methods plainEnv 6).getDcSet plainEnv [[literal 0 3, literal 1 3]]).run aboveBoolean
        = .ok (dc, Γ')
      ∧ ∀ mt ∈ dc, Γ'.AboutComparisons mt → ∀ obj, ¬ ∀ i ∈ mt, Γ'.Says obj i := by
  have hok : (((methods plainEnv 6).getDcSet plainEnv
      [[literal 0 3, literal 1 3]]).run aboveBoolean).toOption.isSome := by decide +kernel
  cases hrun : ((methods plainEnv 6).getDcSet plainEnv
      [[literal 0 3, literal 1 3]]).run aboveBoolean with
  | error e =>
      rw [hrun] at hok
      cases hok
  | ok r =>
      refine ⟨r.1, r.2, rfl, (comparisons_impossible plainEnv 6 aboveBoolean_comparisons ?_
        hrun).mpr aboveBoolean_unambiguous⟩
      refine List.forall_mem_singleton.mpr (List.forall_mem_cons.mpr ⟨⟨_, _, _, rfl⟩, ?_⟩)
      exact List.forall_mem_singleton.mpr ⟨_, _, _, rfl⟩

/-- TRUE and 1 are taken for different values, but 1 equals both. -/
theorem equalBoolean_possible :
    ∃ dc Γ', ((methods plainEnv 6).getDcSet plainEnv [[literal 0 3, literal 1 3]]).run equalBoolean
        = .ok (dc, Γ')
      ∧ ∃ mt ∈ dc, ∀ i ∈ mt, Γ'.Says (fun _ => some (.num (1 : ℤ))) i := by
  have hok : (((methods plainEnv 6).getDcSet plainEnv
      [[literal 0 3, literal 1 3]]).run equalBoolean).toOption.any fun r =>
        decide ([literal 0 3, literal 1 3] ∈ r.1
          ∧ r.2.name 0 = some (CompareOp.eq.name (.ofParam (js "uptime")) (.bool true))
          ∧ r.2.name 1 = some (CompareOp.eq.name (.ofParam (js "uptime")) (.num (1 : ℤ)))) := by
    decide +kernel
  cases hrun : ((methods plainEnv 6).getDcSet plainEnv
      [[literal 0 3, literal 1 3]]).run equalBoolean with
  | error e =>
      rw [hrun] at hok
      cases hok
  | ok r =>
      rw [hrun] at hok
      obtain ⟨hmem, h0, h1⟩ := of_decide_eq_true hok
      refine ⟨r.1, r.2, rfl, _, hmem, List.forall_mem_cons.mpr ⟨⟨_, _, _, h0, rfl⟩, ?_⟩⟩
      exact List.forall_mem_singleton.mpr ⟨_, _, _, h1, rfl⟩

end GenieAcs
