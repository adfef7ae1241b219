import GenieAcs.Lib.InsMap
import GenieAcs.Lib.Results
import GenieAcs.Synth

/-!
# MongoDB queries of minterms

A clause of a MongoDB filter tests one field; variable `v` has the literals
`2 * v + 1`, the clause holds, and `2 * v`, it does not. `toQuery` prints a set
of minterms as a query document: the conditions on one field go into one object
where their operators do not clash, and into the elements of `$and` otherwise.
-/

namespace GenieAcs

inductive MongoOp where
  | eq | gt | lt | gte | lte
  deriving DecidableEq

/-- The operators of a condition, `$not` apart. -/
inductive Operator where
  | eq | ne | gt | lt | gte | lte | type | regularExpression
  deriving DecidableEq

def MongoOp.toOperator : MongoOp → Operator
  | .eq => .eq
  | .gt => .gt
  | .lt => .lt
  | .gte => .gte
  | .lte => .lte

inductive MongoType where
  | any | bool | number | string | date | oid | devices
  deriving DecidableEq

/-- An operand. The extended JSON objects `$date` and `$oid` stand for an
instant, in milliseconds, and an id. -/
inductive MongoValue where
  | null
  | bool (b : Bool)
  | num (q : ℚ)
  | str (s : JsString)
  | date (ms : ℤ)
  | oid (id : JsString)
  | type (t : MongoType)
  | regularExpression (options pattern : JsString)
  deriving DecidableEq

inductive MongoClause where
  | array (parameter value : JsString)
  | compare (parameter : JsString) (op : MongoOp) (value : Option Value) (type : MongoType)
  | type (parameter : JsString) (type : MongoType)
  | like (parameter : JsString) (pattern : List JsString) (caseSensitive : Bool)
  deriving DecidableEq

/-- Operators with their operands: what `$not` negates. -/
abbrev Operators := List (Operator × MongoValue)

/-- An entry of the condition on a field. -/
inductive Entry where
  | op (operator : Operator) (operand : MongoValue)
  | not (operators : Operators)
  deriving DecidableEq

/-- The condition on a field. -/
abbrev Condition := List Entry

/-- Conditions by field. -/
abbrev Fields := InsMap JsString Condition

/-! ## The query of a literal -/

namespace MongoClause

/-- The field, by its path. -/
def parameter : MongoClause → JsString
  | array p _ => p
  | compare p _ _ _ => p
  | type p _ => p
  | like p _ _ => p

/-- `new Date(v)`, which has a text for instants up to 100 million days from the epoch. -/
def toDate (v : ℚ) : Except JsError MongoValue :=
  if 8640000000000000 < |v| then throw .rangeError else pure (.date (v.num.tdiv v.den))

/-- The value of a comparison as extended JSON. -/
def operand (value : Option Value) (type : MongoType) : Except JsError MongoValue :=
  match value, type with
  | some (.num v), .date => toDate v
  | some (.str s), .oid => pure (.oid s)
  | none, _ => pure .null
  | some (.bool b), _ => pure (.bool b)
  | some (.num v), _ => pure (.num v)
  | some (.str s), _ => pure (.str s)

/-- The regular expression of the tokens of a pattern. -/
def likePattern (pattern : List JsString) : JsString :=
  match pattern.map Like.convChars with
  | [] => js "^undefined$"
  | c :: cs =>
      let first := if c = js ".*" then [] else js "^" ++ c
      let chars := first :: cs
      let last := chars.getLast (@List.cons_ne_nil JsString first cs)
      let last := if last = js ".*" ∨ last = [] then [] else last ++ js "$"
      (chars.dropLast ++ [last]).flatten

/-- The test a clause makes of its field. -/
def test : MongoClause → Except JsError (Operator × MongoValue)
  | array _ value => pure (.eq, .str value)
  | compare _ op value kind => do
      let v ← operand value kind
      pure (op.toOperator, v)
  | type _ kind => pure (.type, .type kind)
  | like _ pattern caseSensitive =>
      let options := if caseSensitive then js "s" else js "is"
      pure (.regularExpression, .regularExpression options (likePattern pattern))

/-- The condition of a literal: an equality is negated by `$ne`, everything
else by `$not`. -/
def toQuery (c : MongoClause) (truthy : Bool) : Except JsError Condition := do
  let (op, v) ← c.test
  if truthy then pure [.op op v]
  else if op = .eq then pure [.op .ne v]
  else pure [.not [(op, v)]]

end MongoClause

/-! ## Merging conditions -/

namespace Condition

/-- The key of an entry; `none` for `$not`. -/
def key : Entry → Option Operator
  | .op o _ => some o
  | .not _ => none

/-- Every key of both conditions is `$not`. -/
def bothNot (src dst : Condition) : Option (Operators × Operators) :=
  match src, dst with
  | [.not s], [.not d] => some (s, d)
  | _, _ => none

/-- Two lists of keys that may stand in one object: none in both, and no
extended JSON among them. -/
def compatible (src dst : List (Option Operator)) : Bool :=
  !src.any (fun k => dst.contains k) && !src.contains (some .regularExpression)
    && !dst.contains (some .regularExpression)

/-- The condition `dst` with the entries of `src`; `none` if they are kept apart. -/
def merge (src dst : Condition) : Option Condition :=
  match bothNot src dst with
  | some (s, d) =>
      if compatible (s.map fun p => some p.1) (d.map fun p => some p.1) then some [.not (d ++ s)]
      else none
  | none =>
      if compatible (src.map key) (dst.map key) then some (dst ++ src) else none

end Condition

/-! ## The query of a minterm -/

/-- The query object of a minterm, followed by the elements of its `$and`. -/
abbrev MongoQuery := List Fields

namespace MongoQuery

/-- The properties every object has, whose values are functions. -/
def inherited : List JsString :=
  ["constructor", "hasOwnProperty", "isPrototypeOf", "propertyIsEnumerable", "toLocaleString",
    "toString", "valueOf", "__defineGetter__", "__defineSetter__", "__lookupGetter__",
    "__lookupSetter__"].map js

/-- The loop over the objects a condition may go into; `none` if none takes it.
The prototype of an object has no prototype to compare. -/
def place (param : JsString) (value : Condition) : MongoQuery → Except JsError (Option MongoQuery)
  | [] => pure none
  | dest :: rest =>
      match dest.get? param with
      | some dst =>
          match Condition.merge value dst with
          | some merged => pure (some (dest.set param merged :: rest))
          | none => do
              let placed ← place param value rest
              pure (placed.map (dest :: ·))
      | none =>
          if param = js "__proto__" then throw .typeError
          else if param ∈ inherited then do
            let placed ← place param value rest
            pure (placed.map (dest :: ·))
          else pure (some (dest.set param value :: rest))

def add (query : MongoQuery) (param : JsString) (value : Condition) : Except JsError MongoQuery := do
  match ← place param value query with
  | some query => pure query
  | none => pure (query ++ [InsMap.empty.set param value])

/-- The condition is merged into a `$not` object by a `$not` of its own. -/
def mergesNots (param : JsString) (value : Condition) : MongoQuery → Bool
  | [] => false
  | dest :: rest =>
      match dest.get? param with
      | some dst =>
          match Condition.merge value dst with
          | some _ => (Condition.bothNot value dst).isSome
          | none => mergesNots param value rest
      | none => decide (param ∈ inherited) && mergesNots param value rest

end MongoQuery

/-- A query document. -/
inductive MongoFilter where
  | single (query : MongoQuery)
  | or (queries : List MongoQuery)
  deriving DecidableEq

/-- The clauses by variable; each has been named by its query. -/
structure MongoSynthContext where
  clauses : List MongoClause := []
  named : ∀ c ∈ clauses, ∃ q, c.toQuery true = .ok q := by simp

namespace MongoSynthContext

variable (Γ : MongoSynthContext)

def getClause (v : Nat) : Option MongoClause := Γ.clauses[v]?

/-- The loop over the literals of a minterm. -/
def addLiterals (query : MongoQuery) : Minterm → Except JsError MongoQuery
  | [] => pure query
  | i :: is =>
      match Γ.getClause (i / 2) with
      | none => throw .typeError
      | some c => do
          let value ← c.toQuery (decide (i % 2 = 1))
          let query ← query.add c.parameter value
          addLiterals query is

def toQuery (minterms : Minterms) : Except JsError MongoFilter := do
  let or ← minterms.mapM (Γ.addLiterals [InsMap.empty])
  match or with
  | [query] => pure (.single query)
  | or => pure (.or or)

/-- Some literal is merged into a `$not` object by a `$not` of its own. -/
def conflates (query : MongoQuery) : Minterm → Bool
  | [] => false
  | i :: is =>
      match Γ.getClause (i / 2) with
      | none => false
      | some c =>
          match c.toQuery (decide (i % 2 = 1)) with
          | .error _ => false
          | .ok value => query.mergesNots c.parameter value ||
              match query.add c.parameter value with
              | .error _ => false
              | .ok query => conflates query is

end MongoSynthContext

/-! ## What a query document matches -/

section

variable {D : Type} (test : D → JsString → Operator → MongoValue → Prop) (d : D)

/-- `$ne` is the negation of `$eq`, also where the field is missing; what the
other operators test is left open. -/
def Operator.Holds (field : JsString) : Operator → MongoValue → Prop
  | .ne, v => ¬ test d field .eq v
  | o, v => test d field o v

/-- `$not` negates the conjunction of its operators. -/
def Entry.Holds (field : JsString) : Entry → Prop
  | .op o v => o.Holds test d field v
  | .not operators => ¬ ∀ p ∈ operators, p.1.Holds test d field p.2

def Condition.Holds (field : JsString) (c : Condition) : Prop := ∀ e ∈ c, e.Holds test d field

def MongoQuery.Matches (query : MongoQuery) : Prop :=
  ∀ fields ∈ query, ∀ field c, InsMap.get? fields field = some c → Condition.Holds test d field c

def MongoFilter.Matches : MongoFilter → Prop
  | .single q => q.Matches test d
  | .or queries => ∃ query ∈ queries, MongoQuery.Matches test d query

/-- The literal holds: the clause of its variable does, or does not. -/
def MongoSynthContext.Holds (Γ : MongoSynthContext) (i : Nat) : Prop :=
  ∃ c o v, Γ.getClause (i / 2) = some c ∧ c.test = .ok (o, v)
    ∧ (test d c.parameter o v ↔ i % 2 = 1)

end

/-- A condition MongoDB reads as its operators: each stands once, and a
regular expression stands alone. -/
structure Condition.WellFormed (c : Condition) : Prop where
  nodup : (c.map Condition.key).Nodup
  alone : some Operator.regularExpression ∈ c.map Condition.key → c.length = 1
  not : ∀ operators, Entry.not operators ∈ c → (operators.map (·.1)).Nodup
    ∧ (Operator.regularExpression ∈ operators.map (·.1) → operators.length = 1)

def MongoQuery.WellFormed (query : MongoQuery) : Prop :=
  ∀ fields ∈ query, ∀ field c, InsMap.get? fields field = some c → Condition.WellFormed c

/-- MongoDB refuses an `$or` of nothing. -/
def MongoFilter.WellFormed : MongoFilter → Prop
  | .single q => q.WellFormed
  | .or queries => queries ≠ [] ∧ ∀ query ∈ queries, MongoQuery.WellFormed query

/-! ## Literals -/

theorem MongoClause.test_ne {c : MongoClause} {o : Operator} {v : MongoValue}
    (h : c.test = .ok (o, v)) : o ≠ .ne := by
  cases c with
  | array p value =>
      cases h
      decide
  | compare p op value kind =>
      simp only [MongoClause.test] at h
      cases hv : MongoClause.operand value kind with
      | error e =>
          rw [hv] at h
          cases h
      | ok v' =>
          rw [hv] at h
          cases h
          cases op <;> decide
  | type p kind =>
      cases h
      decide
  | like p pattern caseSensitive =>
      cases h
      decide

theorem Operator.holds_of_ne {D : Type} {test : D → JsString → Operator → MongoValue → Prop} {d : D}
    {field : JsString} {o : Operator} {v : MongoValue} (h : o ≠ .ne) :
    o.Holds test d field v ↔ test d field o v := by
  cases o <;> first | exact absurd rfl h | rfl

/-- The condition of a literal says whether its clause holds. -/
theorem MongoClause.toQuery_spec {c : MongoClause} {o : Operator} {v : MongoValue}
    (h : c.test = .ok (o, v)) (truthy : Bool) :
    ∃ value, c.toQuery truthy = .ok value ∧ Condition.WellFormed value
      ∧ ∀ {D : Type} (test : D → JsString → Operator → MongoValue → Prop) d,
        Condition.Holds test d c.parameter value ↔ (test d c.parameter o v ↔ truthy = true) := by
  have hne := test_ne h
  unfold MongoClause.toQuery
  rw [h]
  change ∃ value, (if truthy then _ else _) = _ ∧ _
  cases truthy with
  | true =>
      refine ⟨_, rfl, ⟨by simp, by simp, by simp⟩, fun test d => ?_⟩
      simp [Condition.Holds, Entry.Holds, Operator.holds_of_ne hne]
  | false =>
      by_cases ho : o = .eq
      · subst ho
        refine ⟨_, rfl, ⟨by simp, by simp, by simp⟩, fun test d => ?_⟩
        simp [Condition.Holds, Entry.Holds, Operator.Holds]
      · refine ⟨[.not [(o, v)]], if_neg ho, ⟨by simp, by simp, by simp⟩, fun test d => ?_⟩
        simp [Condition.Holds, Entry.Holds, Operator.holds_of_ne hne]

/-! ## One literal after the other -/

section

variable {src dst merged : Condition}

theorem Condition.compatible_iff {src dst : List (Option Operator)} :
    Condition.compatible src dst = true ↔ (∀ k ∈ src, k ∉ dst)
      ∧ some .regularExpression ∉ src ∧ some .regularExpression ∉ dst := by
  simp [Condition.compatible, and_assoc]

/-- Conditions that are merged otherwise than by their `$not`. -/
theorem Condition.merge_spec (h : Condition.merge src dst = some merged)
    (hnot : Condition.bothNot src dst = none) (hsrc : src.WellFormed) (hdst : dst.WellFormed) :
    merged.WellFormed ∧ ∀ {D : Type} (test : D → JsString → Operator → MongoValue → Prop) d field,
      merged.Holds test d field ↔ dst.Holds test d field ∧ src.Holds test d field := by
  simp only [Condition.merge, hnot] at h
  split_ifs at h with hcompat
  cases h
  obtain ⟨hdisjoint, hsrcRe, hdstRe⟩ := compatible_iff.mp hcompat
  refine ⟨⟨?_, ?_, ?_⟩, fun test d field => List.forall_mem_append⟩
  · rw [List.map_append]
    refine hdst.nodup.append hsrc.nodup ?_
    exact fun k hk hk' => hdisjoint k hk' hk
  · rw [List.map_append]
    intro hmem
    rcases List.mem_append.mp hmem with hmem | hmem
    · exact absurd hmem hdstRe
    · exact absurd hmem hsrcRe
  · intro operators hmem
    rcases List.mem_append.mp hmem with hmem | hmem
    · exact hdst.not operators hmem
    · exact hsrc.not operators hmem

end

section

variable {param : JsString} {value : Condition} {query placed : MongoQuery}

theorem MongoQuery.wellFormed_cons {fields : Fields} :
    MongoQuery.WellFormed (fields :: query) ↔
      (∀ field c, fields.get? field = some c → c.WellFormed) ∧ query.WellFormed :=
  List.forall_mem_cons

theorem MongoQuery.matches_cons {D : Type} {test : D → JsString → Operator → MongoValue → Prop}
    {d : D} {fields : Fields} :
    MongoQuery.Matches test d (fields :: query) ↔
      (∀ field c, fields.get? field = some c → c.Holds test d field) ∧ query.Matches test d :=
  List.forall_mem_cons

/-- An object with one condition changed. -/
theorem forall_set {P : JsString → Condition → Prop} {fields : Fields} {c : Condition} :
    (∀ field c', (fields.set param c).get? field = some c' → P field c')
      ↔ P param c ∧ ∀ field c', field ≠ param → fields.get? field = some c' → P field c' := by
  constructor
  · intro h
    refine ⟨h param c (InsMap.get?_set_self ..), fun field c' hne hget => h field c' ?_⟩
    rw [InsMap.get?_set_of_ne _ hne, hget]
  · rintro ⟨hc, hrest⟩ field c' hget
    by_cases heq : field = param
    · subst heq
      rw [InsMap.get?_set_self] at hget
      cases hget
      exact hc
    · rw [InsMap.get?_set_of_ne _ heq] at hget
      exact hrest field c' heq hget

theorem MongoQuery.place_spec (hparam : param ≠ js "__proto__") (hvalue : value.WellFormed)
    (hquery : query.WellFormed) (hnots : query.mergesNots param value = false) :
    ∃ r, query.place param value = .ok r ∧ ∀ placed, r = some placed → placed.WellFormed
      ∧ ∀ {D : Type} (test : D → JsString → Operator → MongoValue → Prop) d,
        placed.Matches test d ↔ query.Matches test d ∧ value.Holds test d param := by
  induction query with
  | nil => exact ⟨none, rfl, fun _ h => nomatch h⟩
  | cons dest rest ih =>
      obtain ⟨hdest, hrest⟩ := wellFormed_cons.mp hquery
      unfold MongoQuery.mergesNots at hnots
      unfold MongoQuery.place
      -- the objects after this one are tried
      have hnext : MongoQuery.mergesNots param value rest = false → ∃ r,
          (do let placed ← MongoQuery.place param value rest
              pure (placed.map (dest :: ·)) : Except JsError (Option MongoQuery)) = .ok r
            ∧ ∀ placed, r = some placed → placed.WellFormed
              ∧ ∀ {D : Type} (test : D → JsString → Operator → MongoValue → Prop) d,
                placed.Matches test d
                  ↔ MongoQuery.Matches test d (dest :: rest) ∧ value.Holds test d param := by
        intro hnots
        obtain ⟨r, hr, hspec⟩ := ih hrest hnots
        refine ⟨r.map (dest :: ·), by rw [hr]; rfl, fun placed hplaced => ?_⟩
        obtain ⟨placed', rfl, rfl⟩ := Option.map_eq_some_iff.mp hplaced
        obtain ⟨hwf, hmatches⟩ := hspec placed' rfl
        refine ⟨wellFormed_cons.mpr ⟨hdest, hwf⟩, fun test d => ?_⟩
        rw [matches_cons, matches_cons, hmatches, and_assoc]
      cases hget : dest.get? param with
      | none =>
          rw [hget] at hnots
          dsimp only at hnots ⊢
          rw [if_neg hparam]
          split_ifs with hin
          · exact hnext (by simpa [hin] using hnots)
          · refine ⟨_, rfl, fun placed hplaced => ?_⟩
            cases hplaced
            refine ⟨wellFormed_cons.mpr ⟨forall_set.mpr ⟨hvalue, fun field c _ => hdest field c⟩,
              hrest⟩, fun test d => ?_⟩
            rw [matches_cons, matches_cons, forall_set]
            constructor
            · rintro ⟨⟨hv, hd⟩, hr⟩
              refine ⟨⟨fun field c hc => ?_, hr⟩, hv⟩
              exact hd field c (fun heq => by rw [heq, hget] at hc; cases hc) hc
            · rintro ⟨⟨hd, hr⟩, hv⟩
              exact ⟨⟨hv, fun field c _ => hd field c⟩, hr⟩
      | some dst =>
          rw [hget] at hnots
          dsimp only at hnots ⊢
          cases hmerge : Condition.merge value dst with
          | none =>
              rw [hmerge] at hnots
              exact hnext hnots
          | some merged =>
              rw [hmerge] at hnots
              have hnone : Condition.bothNot value dst = none := by simpa using hnots
              obtain ⟨hwf, hholds⟩ := Condition.merge_spec hmerge hnone hvalue (hdest param dst hget)
              refine ⟨_, rfl, fun placed hplaced => ?_⟩
              cases hplaced
              refine ⟨wellFormed_cons.mpr ⟨forall_set.mpr ⟨hwf, fun field c _ => hdest field c⟩,
                hrest⟩, fun test d => ?_⟩
              rw [matches_cons, matches_cons, forall_set, hholds]
              constructor
              · rintro ⟨⟨⟨hdst, hv⟩, hd⟩, hr⟩
                refine ⟨⟨fun field c hc => ?_, hr⟩, hv⟩
                by_cases heq : field = param
                · subst heq
                  rw [hget] at hc
                  cases hc
                  exact hdst
                · exact hd field c heq hc
              · rintro ⟨⟨hd, hr⟩, hv⟩
                exact ⟨⟨⟨hd param dst hget, hv⟩, fun field c _ => hd field c⟩, hr⟩

/-- A literal added to a query that merges no two `$not`. -/
theorem MongoQuery.add_spec (hparam : param ≠ js "__proto__") (hvalue : value.WellFormed)
    (hquery : query.WellFormed) (hnots : query.mergesNots param value = false) :
    ∃ added, query.add param value = .ok added ∧ added.WellFormed
      ∧ ∀ {D : Type} (test : D → JsString → Operator → MongoValue → Prop) d,
        added.Matches test d ↔ query.Matches test d ∧ value.Holds test d param := by
  obtain ⟨r, hr, hspec⟩ := place_spec hparam hvalue hquery hnots
  unfold MongoQuery.add
  rw [hr]
  cases r with
  | some placed =>
      obtain ⟨hwf, hmatches⟩ := hspec placed rfl
      exact ⟨placed, rfl, hwf, hmatches⟩
  | none =>
      refine ⟨_, rfl, ?_, fun test d => ?_⟩
      · refine List.forall_mem_append.mpr ⟨hquery, List.forall_mem_singleton.mpr ?_⟩
        exact forall_set.mpr ⟨hvalue, fun field c _ hc => nomatch hc⟩
      · refine List.forall_mem_append.trans (and_congr_right' ?_)
        refine List.forall_mem_singleton.trans (forall_set.trans ?_)
        exact and_iff_left fun field c _ hc => nomatch hc

end

/-! ## Minterms -/

namespace MongoSynthContext

variable {Γ : MongoSynthContext}

theorem exists_test {v : Nat} {c : MongoClause} (h : Γ.getClause v = some c) :
    ∃ o w, c.test = .ok (o, w) := by
  obtain ⟨q, hq⟩ := Γ.named c (List.mem_of_getElem? h)
  obtain ⟨p, htest, -⟩ := bind_eq_ok_iff.mp hq
  exact ⟨p.1, p.2, htest⟩

theorem addLiterals_cons {i : Nat} {is : Minterm} {c : MongoClause} {value : Condition}
    {query added : MongoQuery} (hc : Γ.getClause (i / 2) = some c)
    (hvalue : c.toQuery (decide (i % 2 = 1)) = .ok value)
    (hadded : query.add c.parameter value = .ok added) :
    Γ.addLiterals query (i :: is) = Γ.addLiterals added is := by
  rw [addLiterals, hc]
  dsimp only
  rw [hvalue]
  change (do let q ← query.add c.parameter value; addLiterals Γ q is) = _
  rw [hadded]
  rfl

theorem conflates_cons {i : Nat} {is : Minterm} {c : MongoClause} {value : Condition}
    {query added : MongoQuery} (hc : Γ.getClause (i / 2) = some c)
    (hvalue : c.toQuery (decide (i % 2 = 1)) = .ok value)
    (hadded : query.add c.parameter value = .ok added) :
    Γ.conflates query (i :: is) = (query.mergesNots c.parameter value || Γ.conflates added is) := by
  rw [conflates, hc]
  dsimp only
  rw [hvalue]
  dsimp only
  rw [hadded]

theorem holds_iff {i : Nat} {c : MongoClause} {o : Operator} {w : MongoValue}
    (hc : Γ.getClause (i / 2) = some c) (htest : c.test = .ok (o, w)) {D : Type}
    {test : D → JsString → Operator → MongoValue → Prop} {d : D} :
    Γ.Holds test d i ↔ (test d c.parameter o w ↔ i % 2 = 1) := by
  constructor
  · rintro ⟨c', o', w', hc', htest', h⟩
    rw [hc] at hc'
    cases hc'
    rw [htest] at htest'
    cases htest'
    exact h
  · exact fun h => ⟨c, o, w, hc, htest, h⟩

theorem addLiterals_spec (hproto : ∀ c ∈ Γ.clauses, c.parameter ≠ js "__proto__") (m : Minterm) :
    ∀ (query : MongoQuery), query.WellFormed → (∀ i ∈ m, i / 2 < Γ.clauses.length) →
      Γ.conflates query m = false →
      ∃ q, Γ.addLiterals query m = .ok q ∧ q.WellFormed
        ∧ ∀ {D : Type} (test : D → JsString → Operator → MongoValue → Prop) d,
          q.Matches test d ↔ query.Matches test d ∧ ∀ i ∈ m, Γ.Holds test d i := by
  induction m with
  | nil => exact fun query hquery _ _ => ⟨query, rfl, hquery, fun test d => by simp⟩
  | cons i is ih =>
      intro query hquery hvars hconflates
      obtain ⟨hi, hvars⟩ := List.forall_mem_cons.mp hvars
      have hclause : Γ.getClause (i / 2) = some Γ.clauses[i / 2] := List.getElem?_eq_getElem hi
      obtain ⟨o, w, htest⟩ := exists_test hclause
      obtain ⟨value, hvalue, hwf, hholds⟩ :=
        MongoClause.toQuery_spec htest (decide (i % 2 = 1))
      have hparam := hproto _ (List.getElem_mem hi)
      have hnots : query.mergesNots Γ.clauses[i / 2].parameter value = false := by
        rw [conflates, hclause] at hconflates
        dsimp only at hconflates
        rw [hvalue] at hconflates
        exact (Bool.or_eq_false_iff.mp hconflates).1
      obtain ⟨added, hadded, haddedWf, hmatches⟩ := MongoQuery.add_spec hparam hwf hquery hnots
      rw [conflates_cons hclause hvalue hadded, hnots, Bool.false_or] at hconflates
      obtain ⟨q, hq, hqWf, hqMatches⟩ := ih added haddedWf hvars hconflates
      refine ⟨q, ?_, hqWf, fun test d => ?_⟩
      · rw [addLiterals_cons hclause hvalue hadded, hq]
      · rw [hqMatches, hmatches, List.forall_mem_cons, and_assoc, hholds,
          holds_iff hclause htest, decide_eq_true_eq]

/-- The query of the minterms is a query document that matches where some
minterm holds. -/
def Exact (Γ : MongoSynthContext) (minterms : Minterms) : Prop :=
  ∃ filter, Γ.toQuery minterms = .ok filter ∧ filter.WellFormed
    ∧ ∀ {D : Type} (test : D → JsString → Operator → MongoValue → Prop) d,
      filter.Matches test d ↔ ∃ m ∈ minterms, ∀ i ∈ m, Γ.Holds test d i

theorem exact_of_plain {minterms : Minterms} (hne : minterms ≠ [])
    (hvars : ∀ m ∈ minterms, ∀ i ∈ m, i / 2 < Γ.clauses.length)
    (hproto : ∀ c ∈ Γ.clauses, c.parameter ≠ js "__proto__")
    (hconflates : ∀ m ∈ minterms, Γ.conflates [InsMap.empty] m = false) : Γ.Exact minterms := by
  have hall : ∃ or, minterms.mapM (Γ.addLiterals [InsMap.empty]) = .ok or
      ∧ List.Forall₂ (fun m query => MongoQuery.WellFormed query
        ∧ ∀ {D : Type} (test : D → JsString → Operator → MongoValue → Prop) d,
          MongoQuery.Matches test d query ↔ ∀ i ∈ m, Γ.Holds test d i) minterms or := by
    clear hne
    induction minterms with
    | nil => exact ⟨[], rfl, List.Forall₂.nil⟩
    | cons m ms ih =>
        obtain ⟨hm, hms⟩ := List.forall_mem_cons.mp hvars
        obtain ⟨hcm, hcms⟩ := List.forall_mem_cons.mp hconflates
        obtain ⟨or, hor, hspec⟩ := ih hms hcms
        have hempty : MongoQuery.WellFormed [InsMap.empty] :=
          List.forall_mem_singleton.mpr fun _ _ hc => nomatch hc
        obtain ⟨q, hq, hwf, hmatches⟩ := addLiterals_spec hproto m _ hempty hm hcm
        refine ⟨q :: or, ?_, List.Forall₂.cons ⟨hwf, fun test d => ?_⟩ hspec⟩
        · rw [List.mapM_cons, hq, hor]
          rfl
        · refine (hmatches test d).trans (and_iff_right ?_)
          exact List.forall_mem_singleton.mpr fun _ _ hc => nomatch hc
  obtain ⟨or, hor, hspec⟩ := hall
  have hwf : ∀ q ∈ or, MongoQuery.WellFormed q := by
    intro q hq
    obtain ⟨i, hi, rfl⟩ := List.mem_iff_getElem.mp hq
    exact (List.forall₂_iff_get.mp hspec |>.2 i (hspec.length_eq ▸ hi) hi).1
  have hmatches : ∀ {D : Type} (test : D → JsString → Operator → MongoValue → Prop) d,
      (∃ q ∈ or, MongoQuery.Matches test d q) ↔ ∃ m ∈ minterms, ∀ i ∈ m, Γ.Holds test d i := by
    intro D test d
    clear hor hwf hne hvars hconflates
    induction hspec with
    | nil => simp
    | cons h _ ih => simp only [List.exists_mem_cons_iff, h.2 test d, ih]
  unfold Exact toQuery
  rw [hor]
  rcases or with _ | ⟨q, _ | ⟨q', or⟩⟩
  · exact absurd (List.forall₂_nil_right_iff.mp hspec) hne
  · refine ⟨.single q, rfl, hwf q (List.mem_singleton.mpr rfl), fun test d => ?_⟩
    rw [← hmatches]
    simp [MongoFilter.Matches]
  · exact ⟨.or (q :: q' :: or), rfl, ⟨by simp, hwf⟩, hmatches⟩

/-! ## Minterms that are conflated -/

/-- The literals of the minterm make different tests. -/
structure Independent (Γ : MongoSynthContext) (m : Minterm) : Prop where
  nodup : m.Nodup
  inj : ∀ i ∈ m, ∀ j ∈ m, ∀ c c', Γ.getClause (i / 2) = some c → Γ.getClause (j / 2) = some c' →
    c.parameter = c'.parameter → c.test = c'.test → i = j

section

variable {D : Type} {test : D → JsString → Operator → MongoValue → Prop} {d : D}

/-- Merging makes no condition false that holds, if what is merged holds or is
put under the `$not` that is there. -/
theorem merge_holds {src dst merged : Condition} {field : JsString}
    (h : Condition.merge src dst = some merged) (hdst : dst.Holds test d field)
    (hsrc : src.Holds test d field ∨ (Condition.bothNot src dst).isSome = true) :
    merged.Holds test d field := by
  unfold Condition.merge at h
  cases hnot : Condition.bothNot src dst with
  | none =>
      rw [hnot] at h hsrc
      dsimp only at h
      split_ifs at h
      cases h
      exact List.forall_mem_append.mpr ⟨hdst, hsrc.resolve_right (by simp)⟩
  | some p =>
      obtain ⟨s, d'⟩ := p
      rw [hnot] at h
      dsimp only at h
      split_ifs at h
      cases h
      have hd' : dst = [.not d'] := by
        unfold Condition.bothNot at hnot
        split at hnot
        · cases hnot
          rfl
        · cases hnot
      subst hd'
      have hfalse := hdst (.not d') (List.mem_singleton.mpr rfl)
      refine List.forall_mem_singleton.mpr fun hall => hfalse fun p hp => ?_
      exact hall p (List.mem_append_left _ hp)

theorem add_holds {param : JsString} {value : Condition} {query added : MongoQuery}
    (h : query.add param value = .ok added) (hquery : query.Matches test d)
    (hvalue : value.Holds test d param ∨ query.mergesNots param value = true) :
    added.Matches test d := by
  have hplace : ∀ {query : MongoQuery} {r : Option MongoQuery},
      query.place param value = .ok r → query.Matches test d →
      (value.Holds test d param ∨ query.mergesNots param value = true) →
      (∀ placed, r = some placed → placed.Matches test d)
        ∧ (r = none → value.Holds test d param) := by
    intro query
    induction query with
    | nil =>
        intro r hr _ hvalue
        cases hr
        exact ⟨fun _ h => (nomatch h), fun _ => hvalue.resolve_right (by simp [MongoQuery.mergesNots])⟩
    | cons dest rest ih =>
        intro r hr hquery hvalue
        obtain ⟨hdest, hrest⟩ := MongoQuery.matches_cons.mp hquery
        unfold MongoQuery.place at hr
        unfold MongoQuery.mergesNots at hvalue
        have hnext : (do let placed ← MongoQuery.place param value rest
                         pure (placed.map (dest :: ·)) : Except JsError (Option MongoQuery)) = .ok r →
            (value.Holds test d param ∨ MongoQuery.mergesNots param value rest = true) →
            (∀ placed, r = some placed → placed.Matches test d)
              ∧ (r = none → value.Holds test d param) := by
          intro hr hvalue
          obtain ⟨r', hplaced, hr⟩ := bind_eq_ok_iff.mp hr
          cases hr
          obtain ⟨hsome, hnone⟩ := ih hplaced hrest hvalue
          refine ⟨fun placed h => ?_, fun h => hnone (Option.map_eq_none_iff.mp h)⟩
          obtain ⟨placed', rfl, rfl⟩ := Option.map_eq_some_iff.mp h
          exact MongoQuery.matches_cons.mpr ⟨hdest, hsome placed' rfl⟩
        have hput : ∀ c : Condition, c.Holds test d param → r = some (dest.set param c :: rest) →
            (∀ placed, r = some placed → placed.Matches test d)
              ∧ (r = none → value.Holds test d param) := by
          rintro c hc rfl
          refine ⟨fun placed h => ?_, fun h => nomatch h⟩
          cases h
          exact MongoQuery.matches_cons.mpr
            ⟨forall_set.mpr ⟨hc, fun field c' _ hc' => hdest field c' hc'⟩, hrest⟩
        cases hget : dest.get? param with
        | none =>
            rw [hget] at hr hvalue
            dsimp only at hr hvalue
            split_ifs at hr with hproto hin
            · exact hnext hr (by simpa [hin] using hvalue)
            · cases hr
              exact hput value (hvalue.resolve_right (by simp [hin])) rfl
        | some dst =>
            rw [hget] at hr hvalue
            dsimp only at hr hvalue
            cases hmerge : Condition.merge value dst with
            | none =>
                rw [hmerge] at hr hvalue
                exact hnext hr hvalue
            | some merged =>
                rw [hmerge] at hr hvalue
                cases hr
                exact hput merged (merge_holds hmerge (hdest param dst hget) hvalue) rfl
  obtain ⟨r, hr, h⟩ := bind_eq_ok_iff.mp h
  obtain ⟨hsome, hnone⟩ := hplace hr hquery hvalue
  cases r with
  | some placed =>
      cases h
      exact hsome _ rfl
  | none =>
      cases h
      refine List.forall_mem_append.mpr ⟨hquery, List.forall_mem_singleton.mpr ?_⟩
      exact forall_set.mpr ⟨hnone rfl, fun field c _ hc => nomatch hc⟩

end

theorem mergesNots_op {param : JsString} {o : Operator} {v : MongoValue} (query : MongoQuery) :
    query.mergesNots param [.op o v] = false := by
  induction query with
  | nil => rfl
  | cons dest rest ih =>
      unfold MongoQuery.mergesNots
      cases dest.get? param with
      | none => simp [ih]
      | some dst =>
          dsimp only
          cases Condition.merge [.op o v] dst with
          | none => exact ih
          | some merged => rfl

theorem mergesNots_truthy {c : MongoClause} {param : JsString} {value : Condition} {query : MongoQuery}
    (h : c.toQuery true = .ok value) : query.mergesNots param value = false := by
  obtain ⟨p, -, h⟩ := bind_eq_ok_iff.mp h
  cases h
  exact mergesNots_op query

theorem addLiterals_inv {i : Nat} {is : Minterm} {query q : MongoQuery}
    (h : Γ.addLiterals query (i :: is) = .ok q) :
    ∃ c value added, Γ.getClause (i / 2) = some c ∧ c.toQuery (decide (i % 2 = 1)) = .ok value
      ∧ query.add c.parameter value = .ok added ∧ Γ.addLiterals added is = .ok q
      ∧ ∀ {D : Type} (test : D → JsString → Operator → MongoValue → Prop) d,
        Γ.Holds test d i → value.Holds test d c.parameter := by
  rw [addLiterals] at h
  cases hc : Γ.getClause (i / 2) with
  | none =>
      rw [hc] at h
      cases h
  | some c =>
      obtain ⟨o, w, htest⟩ := exists_test hc
      obtain ⟨value, hvalue, _, hholds⟩ := MongoClause.toQuery_spec htest (decide (i % 2 = 1))
      rw [hc] at h
      dsimp only at h
      obtain ⟨value', hvalue', h⟩ := bind_eq_ok_iff.mp h
      cases Except.ok.inj (hvalue.symm.trans hvalue')
      obtain ⟨added, hadded, h⟩ := bind_eq_ok_iff.mp h
      refine ⟨c, value, added, rfl, hvalue, hadded, h, fun test d hi => ?_⟩
      rw [hholds, decide_eq_true_eq]
      exact (holds_iff hc htest).mp hi

theorem addLiterals_holds {is : Minterm} :
    ∀ {query q : MongoQuery}, Γ.addLiterals query is = .ok q →
      ∀ {D : Type} (test : D → JsString → Operator → MongoValue → Prop) d,
        query.Matches test d → (∀ j ∈ is, Γ.Holds test d j) → q.Matches test d := by
  induction is with
  | nil =>
      intro query q hq D test d hquery _
      cases hq
      exact hquery
  | cons i is ih =>
      intro query q hq D test d hquery hall
      obtain ⟨hi, hall⟩ := List.forall_mem_cons.mp hall
      obtain ⟨c, value, added, _, _, hadded, hrest, hholds⟩ := addLiterals_inv hq
      exact ih hrest test d (add_holds hadded hquery (.inl (hholds test d hi))) hall

/-- A minterm that is conflated has a negated literal its query does not depend on. -/
theorem conflates_spec {m : Minterm} (hnodup : m.Nodup) :
    ∀ {query q : MongoQuery}, Γ.conflates query m = true → Γ.addLiterals query m = .ok q →
      ∃ i ∈ m, i % 2 ≠ 1 ∧ ∀ {D : Type} (test : D → JsString → Operator → MongoValue → Prop) d,
        query.Matches test d → (∀ j ∈ m, j ≠ i → Γ.Holds test d j) → q.Matches test d := by
  induction m with
  | nil => exact fun h => absurd h (by simp [conflates])
  | cons i is ih =>
      intro query q hconflates hq
      obtain ⟨hnot, hnodup⟩ := List.nodup_cons.mp hnodup
      obtain ⟨c, value, added, hc, hvalue, hadded, hrest, hholds⟩ := addLiterals_inv hq
      rw [conflates_cons hc hvalue hadded] at hconflates
      cases hnots : query.mergesNots c.parameter value with
      | true =>
          refine ⟨i, List.mem_cons_self .., fun hodd => ?_, fun test d hquery hall => ?_⟩
          · rw [decide_eq_true hodd] at hvalue
            rw [mergesNots_truthy hvalue] at hnots
            cases hnots
          · refine addLiterals_holds hrest test d (add_holds hadded hquery (.inr hnots)) ?_
            intro j hj
            exact hall j (List.mem_cons_of_mem _ hj) fun heq => hnot (heq ▸ hj)
      | false =>
          rw [hnots, Bool.false_or] at hconflates
          obtain ⟨j, hj, hodd, hspec⟩ := ih hnodup hconflates hrest
          refine ⟨j, List.mem_cons_of_mem _ hj, hodd, fun test d hquery hall => ?_⟩
          have hi : Γ.Holds test d i :=
            hall i (List.mem_cons_self ..) fun heq => hnot (heq ▸ hj)
          exact hspec test d (add_holds hadded hquery (.inl (hholds test d hi)))
            fun k hk hne => hall k (List.mem_cons_of_mem _ hk) hne

theorem not_exact_of_conflates {m : Minterm} (hvars : ∀ i ∈ m, i / 2 < Γ.clauses.length)
    (hindependent : Γ.Independent m)
    (hconflates : Γ.conflates [InsMap.empty] m = true) : ¬ Γ.Exact [m] := by
  rintro ⟨filter, hfilter, _, hmatches⟩
  have hq : ∃ q, Γ.addLiterals [InsMap.empty] m = .ok q ∧ filter = .single q := by
    unfold toQuery at hfilter
    rw [List.mapM_cons, List.mapM_nil] at hfilter
    obtain ⟨qs, hqs, hfilter⟩ := bind_eq_ok_iff.mp hfilter
    obtain ⟨q, hq, hqs⟩ := bind_eq_ok_iff.mp hqs
    cases hqs
    exact ⟨q, hq, (Except.ok.inj hfilter).symm⟩
  obtain ⟨q, hq, rfl⟩ := hq
  obtain ⟨i, hi, heven, hspec⟩ := conflates_spec hindependent.nodup hconflates hq
  -- what the positive literals test is true, and what the conflated one tests
  let test : Unit → JsString → Operator → MongoValue → Prop := fun _ field o v =>
    ∃ j ∈ m, (j % 2 = 1 ∨ j = i) ∧ ∃ c, Γ.getClause (j / 2) = some c ∧ c.parameter = field
      ∧ c.test = .ok (o, v)
  have hclause : ∀ j ∈ m, ∃ c o v, Γ.getClause (j / 2) = some c ∧ c.test = .ok (o, v) := by
    intro j hj
    have hlt := hvars j hj
    have hc : Γ.getClause (j / 2) = some Γ.clauses[j / 2] := List.getElem?_eq_getElem hlt
    obtain ⟨o, v, htest⟩ := exists_test hc
    exact ⟨_, o, v, hc, htest⟩
  have hothers : ∀ j ∈ m, j ≠ i → Γ.Holds test () j := by
    intro j hj hne
    obtain ⟨c, o, v, hc, htest⟩ := hclause j hj
    refine (holds_iff hc htest).mpr ⟨?_, fun hodd => ⟨j, hj, .inl hodd, c, hc, rfl, htest⟩⟩
    rintro ⟨k, hk, hkind, c', hc', hparam, htest'⟩
    have heq := hindependent.inj k hk j hj c' c hc' hc hparam (htest'.trans htest.symm)
    subst heq
    exact hkind.resolve_right hne
  have hall := (hmatches test ()).mp (hspec test () (List.forall_mem_singleton.mpr
    fun _ _ hc => nomatch hc) hothers)
  obtain ⟨m', hm', hall⟩ := hall
  rw [List.mem_singleton.mp hm'] at hall
  obtain ⟨c, o, v, hc, htest⟩ := hclause i hi
  exact heven ((holds_iff hc htest).mp (hall i hi) |>.mp ⟨i, hi, .inr rfl, c, hc, rfl, htest⟩)

/-- The query of a set of minterms is exact if it conflates none of them. The
query of one minterm with different literals is exact only then. -/
theorem toQuery_exact (Γ : MongoSynthContext) {minterms : Minterms} (hne : minterms ≠ [])
    (hvars : ∀ m ∈ minterms, ∀ i ∈ m, i / 2 < Γ.clauses.length)
    (hproto : ∀ c ∈ Γ.clauses, c.parameter ≠ js "__proto__") :
    ((∀ m ∈ minterms, Γ.conflates [InsMap.empty] m = false) → Γ.Exact minterms)
      ∧ ∀ m ∈ minterms, Γ.Independent m →
        (Γ.Exact [m] ↔ Γ.conflates [InsMap.empty] m = false) := by
  refine ⟨exact_of_plain hne hvars hproto, fun m hm hindependent => ⟨fun hexact => ?_, fun h => ?_⟩⟩
  · by_contra htrue
    exact not_exact_of_conflates (hvars m hm) hindependent (Bool.not_eq_false _ ▸ htrue) hexact
  · exact exact_of_plain (by simp) (List.forall_mem_singleton.mpr (hvars m hm)) hproto
      (List.forall_mem_singleton.mpr h)

/-! ## Two queries -/

/-- The clauses of `Param1 <> 'value1'` and of an uptime of 5 and above. -/
def renamed : MongoSynthContext where
  clauses :=
    [.compare (js "Param1._value") .eq (some (.str (js "value1"))) .string,
      .compare (js "Param1._value") .eq none .any,
      .compare (js "uptime._value") .lt (some (.num (5 : ℤ))) .number]
  named := by
    simp only [List.forall_mem_cons, List.not_mem_nil, false_imp_iff, implies_true, and_true]
    exact ⟨⟨_, rfl⟩, ⟨_, rfl⟩, ⟨_, rfl⟩⟩

/-- `toQuery_exact` on three negated literals. -/
theorem toQuery_exact_renamed : renamed.Exact [[0, 2, 4]] :=
  (toQuery_exact renamed (List.cons_ne_nil _ _) (by decide) (by decide)).1 (by decide +kernel)

/-- The clauses of an uptime above 5 and below 3. -/
def outside : MongoSynthContext where
  clauses :=
    [.compare (js "uptime._value") .gt (some (.num (5 : ℤ))) .number,
      .compare (js "uptime._value") .lt (some (.num (3 : ℤ))) .number]
  named := by
    simp only [List.forall_mem_cons, List.not_mem_nil, false_imp_iff, implies_true, and_true]
    exact ⟨⟨_, rfl⟩, ⟨_, rfl⟩⟩

/-- Comparisons of a number with numbers. -/
def numberTest (d : ℚ) (_ : JsString) (o : Operator) (v : MongoValue) : Prop :=
  match o, v with
  | .eq, .num q => d = q
  | .gt, .num q => q < d
  | .gte, .num q => q ≤ d
  | .lt, .num q => d < q
  | .lte, .num q => d ≤ q
  | _, _ => False

/-- An uptime of 7 is not below 3, but it is above 5: the query, which negates
both at once, matches it. -/
theorem toQuery_conflated :
    ∃ filter, outside.toQuery [[0, 2]] = .ok filter ∧ filter.Matches numberTest 7
      ∧ ¬ ∃ m ∈ [[0, 2]], ∀ i ∈ m, outside.Holds numberTest 7 i := by
  have hquery : outside.toQuery [[0, 2]] = .ok (.single [InsMap.empty.set (js "uptime._value")
      [.not [(.gt, .num (5 : ℤ)), (.lt, .num (3 : ℤ))]]]) := by
    decide +kernel
  refine ⟨_, hquery, ?_, ?_⟩
  · refine List.forall_mem_singleton.mpr (forall_set.mpr ⟨?_, fun _ _ _ h => nomatch h⟩)
    refine List.forall_mem_singleton.mpr fun hall => ?_
    have hlt : (7 : ℚ) < (3 : ℤ) := hall (.lt, .num (3 : ℤ)) (by simp)
    norm_num at hlt
  · rintro ⟨m, hm, hall⟩
    rw [List.mem_singleton.mp hm] at hall
    have hgt := (@holds_iff outside 0 _ .gt (.num (5 : ℤ)) rfl rfl ℚ numberTest 7).mp (hall 0 (by simp))
    have h : numberTest 7 (js "uptime._value") .gt (.num (5 : ℤ)) := by
      change ((5 : ℤ) : ℚ) < 7
      norm_num
    exact absurd (hgt.mp h) (by decide)

end MongoSynthContext

end GenieAcs
