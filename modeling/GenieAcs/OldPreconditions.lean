import GenieAcs.Evaluates
import GenieAcs.Lib.Results
import GenieAcs.Tags

/-!
# Old preconditions

Preconditions used to be queries in the style of MongoDB, kept as JSON.
`convertOldPrecondition` turns one into an expression. In the old language a
condition on an absent parameter is false, except for `$ne`; an expression has a
third truth value there. A converted query is true on a device just where the
device satisfies the query (`convertOldPrecondition_iff`); it is converted unless
one of the tags in `_tags` has a lone surrogate, which `encodeTag` cannot encode.
-/

namespace GenieAcs

/-- What `JSON.parse` gives; the properties of an object are in the order of
`Object.entries`. -/
inductive Json where
  | null
  | bool (b : Bool)
  | num (q : ℚ)
  | str (s : JsString)
  | arr (vs : List Json)
  | obj (fields : List (JsString × Json))

namespace OldPrecondition

/-! ## Conversion -/

inductive ConvertError where
  | error (message : JsString)
  | typeError
  | uriError

/-- A string, number or boolean. -/
def primitive : Json → Option Value
  | .bool b => some (.bool b)
  | .num q => some (.num q)
  | .str s => some (.str s)
  | _ => none

def truthyJson : Json → Bool
  | .null => false
  | .bool b => b
  | .num q => decide (q ≠ 0)
  | .str s => decide (s ≠ [])
  | .arr _ | .obj _ => true

def ofPrimitive : Value → Json
  | .bool b => .bool b
  | .num q => .num q
  | .str s => .str s

/-- A comparison of the parameter with a literal. -/
def compareParam (op : Op) (k : JsString) (v : Value) : Expr :=
  .app op [.ofParam k, .lit (some v)]

/-- The expressions of one property that has several. -/
def conjoined : List Expr → List Expr
  | [] => []
  | [e] => [e]
  | es => [.app .and es]

/-- What `recursive` returns. -/
def joined : List Expr → Expr
  | [] => .ofBool true
  | [e] => e
  | es => .app .and es

/-- `["PARAM", …]` of a tag, under the operator. -/
def tagTest (op : Op) (tag : JsString) : Except ConvertError Expr :=
  match Tag.encodeTag tag with
  | none => throw .uriError
  | some name => pure (.app op [.ofParam (js "Tags." ++ name)])

def tagsEntry : JsString × Json → Except ConvertError Expr
  | (op, val) =>
      if op = js "$ne" then
        match val with
        | .str s => tagTest .isNull s
        | _ => throw (.error (js "Only string values are allowed for _tags"))
      else if op = js "$eq" then
        match val with
        | .str s => tagTest .isNotNull s
        | _ => throw (.error (js "Only string values are allowed for _tags"))
      else throw (.error (js "Invalid tag query"))

variable (J : Js)

/-- What is behind `_tags`. -/
def tagsExpressions : Json → Except ConvertError (List Expr)
  | .null => throw .typeError
  | .arr _ => throw (.error (js "Invalid type"))
  | .obj fields => do
      let conjs ← fields.mapM tagsEntry
      pure (conjoined conjs)
  | .str s => do pure [← tagTest .isNotNull s]
  -- `encodeURIComponent` makes a string of them
  | .num q => do pure [← tagTest .isNotNull (J.numberToString q)]
  | .bool b => do pure [← tagTest .isNotNull (if b then js "true" else js "false")]

/-- Whether a property behind `Tags.` asks for the tag. -/
def tagExists : Json → Except ConvertError Bool
  | .bool b => pure b
  | .null => throw .typeError
  | .obj fields =>
      -- the property is called instead of the method
      if fields.any (·.1 = js "hasOwnProperty") then throw .typeError
      else
        match fields.find? (·.1 = js "$eq"), fields.find? (·.1 = js "$ne"),
            fields.find? (·.1 = js "$exists") with
        | some (_, v), _, _ => pure (truthyJson v)
        | none, some (_, v), _ => pure (!truthyJson v)
        | none, none, some (_, v) => pure (truthyJson v)
        | none, none, none => throw (.error (js "Invalid tag query"))
  | _ => throw (.error (js "Invalid tag query"))

/-- What an operator makes of the parameter and a value. -/
def comparison (k kk : JsString) : Option (Value → Expr) :=
  if kk = js "$eq" then some (compareParam .eq k)
  else if kk = js "$ne" then
    some fun v => .app .or [compareParam .ne k v, .app .isNull [.ofParam k]]
  else if kk = js "$lt" then some (compareParam .lt k)
  else if kk = js "$lte" then some (compareParam .le k)
  else if kk = js "$gt" then some (compareParam .gt k)
  else if kk = js "$gte" then some (compareParam .ge k)
  else none

def paramEntry (k : JsString) : JsString × Json → Except ConvertError Expr
  | (kk, vv) =>
      match comparison k kk with
      | none => throw (.error (js "Operator " ++ kk ++ js " not supported"))
      | some exp =>
          match primitive vv with
          | none => throw (.error (js "Invalid value for " ++ kk ++ js " operator"))
          | some v => pure (exp v)

/-- The property of a parameter. -/
def paramExpressions (k : JsString) : Json → Except ConvertError (List Expr)
  | .null => throw .typeError
  | .arr _ => throw (.error (js "Invalid type"))
  | .obj fields => do
      let exps ← fields.mapM (paramEntry k)
      pure (conjoined exps)
  | .bool b => pure [compareParam .eq k (.bool b)]
  | .num q => pure [compareParam .eq k (.num q)]
  | .str s => pure [compareParam .eq k (.str s)]

/-- A property whose name is no operator. -/
def plainExpressions (k : JsString) (v : Json) : Except ConvertError (List Expr) :=
  if k = js "_tags" then tagsExpressions J v
  else if js "Tags." <+: k then do
    let wanted ← tagExists v
    pure [.app (if wanted then .isNotNull else .isNull) [.ofParam k]]
  else paramExpressions k v

/-- The properties of an array or a string are named by their indices. -/
def indexed (vs : List Json) : List (JsString × Json) :=
  vs.mapIdx fun i v => (js (toString i), v)

mutual

def recursive : Json → Except ConvertError Expr
  | .null => throw .typeError
  | .bool _ | .num _ => pure (joined [])
  | .str s => do
      let expressions ← (indexed (s.map fun c => .str [c])).mapM fun f => plainExpressions J f.1 f.2
      pure (joined expressions.flatten)
  | .arr vs => do
      let expressions ← (indexed vs).mapM fun f => plainExpressions J f.1 f.2
      pure (joined expressions.flatten)
  | .obj fields => do
      let expressions ← entries fields
      pure (joined expressions)

/-- The loop over the properties of a query. -/
def entries : List (JsString × Json) → Except ConvertError (List Expr)
  | [] => pure []
  | f :: fields => do
      let exps ← entry f
      let expressions ← entries fields
      pure (exps ++ expressions)

def entry : JsString × Json → Except ConvertError (List Expr)
  | (k, v) =>
      if k.head? = some '$'.toNat then
        if k = js "$and" then do
          let args ← members v
          pure [.app .and args]
        else if k = js "$or" then do
          let args ← members v
          pure [.app .or args]
        else throw (.error (js "Operator " ++ k ++ js " not supported"))
      else plainExpressions J k v

/-- `recursive` of each of `Object.values`. -/
def members : Json → Except ConvertError (List Expr)
  | .null => throw .typeError
  | .bool _ | .num _ => pure []
  | .str s => pure (s.map fun c => compareParam .eq (js "0") (.str [c]))
  | .arr vs => elements vs
  | .obj fields => fieldValues fields

def elements : List Json → Except ConvertError (List Expr)
  | [] => pure []
  | v :: vs => do
      let e ← recursive v
      let es ← elements vs
      pure (e :: es)

def fieldValues : List (JsString × Json) → Except ConvertError (List Expr)
  | [] => pure []
  | (_, v) :: fields => do
      let e ← recursive v
      let es ← fieldValues fields
      pure (e :: es)

end

def convertOldPrecondition (q : List (JsString × Json)) : Except ConvertError Expr :=
  if q = [] then pure (.ofBool true) else recursive J (.obj q)

/-! ## Queries

The queries that are converted. What they are as JSON, and which devices satisfy
them, goes by their structure.
-/

inductive Comparator where
  | eq | ne | lt | lte | gt | gte

def Comparator.name : Comparator → JsString
  | .eq => js "$eq"
  | .ne => js "$ne"
  | .lt => js "$lt"
  | .lte => js "$lte"
  | .gt => js "$gt"
  | .gte => js "$gte"

/-- An absent parameter satisfies `$ne` only. -/
def Comparator.Holds (c : Comparator) (v : Value) : Option Value → Prop
  | none => match c with
      | .ne => True
      | _ => False
  | some w => match c with
      | .eq => w.compare v = .eq
      | .ne => w.compare v ≠ .eq
      | .lt => w.compare v = .lt
      | .lte => w.compare v ≠ .gt
      | .gt => w.compare v = .gt
      | .gte => w.compare v ≠ .lt

/-- The name of a parameter in a query. -/
structure ParamName where
  name : JsString
  noOperator : name.head? ≠ some '$'.toNat
  notTags : name ≠ js "_tags"
  noTag : ¬ js "Tags." <+: name

/-- What stands behind `Tags.` and a name. -/
inductive Presence where
  | bool (b : Bool)
  | eq (b : Bool)
  | ne (b : Bool)
  | exists (b : Bool)

def Presence.wanted : Presence → Bool
  | .bool b | .eq b | .exists b => b
  | .ne b => !b

def Presence.toJson : Presence → Json
  | .bool b => .bool b
  | .eq b => .obj [(js "$eq", .bool b)]
  | .ne b => .obj [(js "$ne", .bool b)]
  | .exists b => .obj [(js "$exists", .bool b)]

/-- A property of a query; a query is a list of properties. -/
inductive Condition where
  | and (queries : List (List Condition))
  | or (queries : List (List Condition))
  | tag (tag : JsString)
  /-- `$eq` where it is true, `$ne` where it is false. -/
  | tags (tests : List (Bool × JsString))
  | present (name : JsString) (presence : Presence)
  | param (p : ParamName) (v : Value)
  | compare (p : ParamName) (tests : List (Comparator × Value))

abbrev Query := List Condition

mutual

def Condition.toJson : Condition → JsString × Json
  | .and queries => (js "$and", .arr (queriesJson queries))
  | .or queries => (js "$or", .arr (queriesJson queries))
  | .tag tag => (js "_tags", .str tag)
  | .tags tests =>
      (js "_tags", .obj (tests.map fun t => (if t.1 then js "$eq" else js "$ne", .str t.2)))
  | .present name presence => (js "Tags." ++ name, presence.toJson)
  | .param p v => (p.name, ofPrimitive v)
  | .compare p tests => (p.name, .obj (tests.map fun t => (t.1.name, ofPrimitive t.2)))

def queryJson : List Condition → List (JsString × Json)
  | [] => []
  | c :: cs => c.toJson :: queryJson cs

def queriesJson : List (List Condition) → List Json
  | [] => []
  | q :: qs => .obj (queryJson q) :: queriesJson qs

end

/-- The parameter of the tag is present. -/
def HasTag (device : Lookup) (tag : JsString) : Prop :=
  ∃ name, Tag.encodeTag tag = some name ∧ device (js "Tags." ++ name) ≠ none

mutual

def Condition.Satisfied (device : Lookup) : Condition → Prop
  | .and queries => AllSatisfied device queries
  | .or queries => AnySatisfied device queries
  | .tag tag => HasTag device tag
  | .tags tests => ∀ t ∈ tests, (t.1 = true ↔ HasTag device t.2)
  | .present name presence => presence.wanted = true ↔ device (js "Tags." ++ name) ≠ none
  | .param p v => Comparator.eq.Holds v (device p.name)
  | .compare p tests => ∀ t ∈ tests, t.1.Holds t.2 (device p.name)

/-- A device satisfies a query if it satisfies all its properties. -/
def Satisfied (device : Lookup) : List Condition → Prop
  | [] => True
  | c :: cs => c.Satisfied device ∧ Satisfied device cs

def AllSatisfied (device : Lookup) : List (List Condition) → Prop
  | [] => True
  | q :: qs => Satisfied device q ∧ AllSatisfied device qs

def AnySatisfied (device : Lookup) : List (List Condition) → Prop
  | [] => False
  | q :: qs => Satisfied device q ∨ AnySatisfied device qs

end

/-- `isWellFormed`: surrogates stand in pairs. -/
def WellFormed : JsString → Prop
  | [] => True
  | [c] => ¬ (UriComponent.isHigh c ∨ UriComponent.isLow c)
  | c :: d :: cs =>
      if UriComponent.isHigh c then UriComponent.isLow d ∧ WellFormed cs
      else ¬ UriComponent.isLow c ∧ WellFormed (d :: cs)

mutual

/-- The tags in `_tags` are well formed. -/
def Condition.TagsFormed : Condition → Prop
  | .and queries | .or queries => AllFormed queries
  | .tag tag => WellFormed tag
  | .tags tests => ∀ t ∈ tests, WellFormed t.2
  | .present _ _ | .param _ _ | .compare _ _ => True

def TagsFormed : List Condition → Prop
  | [] => True
  | c :: cs => c.TagsFormed ∧ TagsFormed cs

def AllFormed : List (List Condition) → Prop
  | [] => True
  | q :: qs => TagsFormed q ∧ AllFormed qs

end

theorem unreserved_not_surrogate {c : Nat} (h : UriComponent.unreserved c = true) :
    UriComponent.isHigh c = false ∧ UriComponent.isLow c = false := by
  rw [UriComponent.unreserved_iff] at h
  rw [UriComponent.isHigh, UriComponent.isLow, decide_eq_false_iff_not, decide_eq_false_iff_not]
  omega

theorem encodeURIComponent_isSome (s : JsString) :
    (UriComponent.encodeURIComponent s).isSome = true ↔ WellFormed s := by
  match s with
  | [] => exact iff_of_true rfl trivial
  | [c] =>
      rw [UriComponent.encode_single, WellFormed]
      split_ifs with hplain hsurrogate
      · obtain ⟨hhigh, hlow⟩ := unreserved_not_surrogate hplain
        simp [hhigh, hlow]
      · exact iff_of_false (by simp) (not_not.mpr hsurrogate)
      · exact iff_of_true rfl hsurrogate
  | c :: d :: cs =>
      have hcs := encodeURIComponent_isSome cs
      have hdcs := encodeURIComponent_isSome (d :: cs)
      rw [UriComponent.encode_cons, WellFormed]
      by_cases hplain : UriComponent.unreserved c = true
      · obtain ⟨hhigh, hlow⟩ := unreserved_not_surrogate hplain
        simp [hplain, hhigh, hlow, hdcs]
      · by_cases hlow : UriComponent.isLow c = true
        · have hhigh : ¬ UriComponent.isHigh c = true := by
            rw [UriComponent.isLow, decide_eq_true_eq] at hlow
            rw [UriComponent.isHigh, decide_eq_true_eq]
            omega
          simp [hplain, hlow, hhigh]
        · by_cases hhigh : UriComponent.isHigh c = true
          · by_cases hpair : UriComponent.isLow d = true <;> simp [hplain, hlow, hhigh, hpair, hcs]
          · simp [hplain, hlow, hhigh, hdcs]

theorem encodeTag_isSome {s : JsString} : (Tag.encodeTag s).isSome = true ↔ WellFormed s := by
  rw [Tag.encodeTag, Option.isSome_map, encodeURIComponent_isSome s]

/-! ## Truth -/

section Truth

variable {J : Js} {device : Lookup} {now : Option ℚ}

/-- The expression has a truth value, which is true just when `P` holds. -/
def Says (J : Js) (device : Lookup) (now : Option ℚ) (P : Prop) (e : Expr) : Prop :=
  ∃ t, Means J device now e t ∧ (t = some true ↔ P)

/-- One for each of the expressions, and together they hold just when `P` does. -/
def SaysAll (J : Js) (device : Lookup) (now : Option ℚ) (P : Prop) (es : List Expr) : Prop :=
  ∃ Ps, List.Forall₂ (Says J device now) Ps es ∧ ((∀ p ∈ Ps, p) ↔ P)

theorem Says.congr {P Q : Prop} {e : Expr} (h : Says J device now P e) (hPQ : P ↔ Q) :
    Says J device now Q e := by
  obtain ⟨t, ht, htrue⟩ := h
  exact ⟨t, ht, htrue.trans hPQ⟩

theorem exists_truths {Ps : List Prop} {es : List Expr}
    (h : List.Forall₂ (Says J device now) Ps es) :
    ∃ ts, List.Forall₂ (Means J device now) es ts
      ∧ ((∀ t ∈ ts, t = some true) ↔ ∀ p ∈ Ps, p) ∧ (some true ∈ ts ↔ ∃ p ∈ Ps, p) := by
  induction h with
  | nil => exact ⟨[], .nil, by simp, by simp⟩
  | cons he _ ih =>
      obtain ⟨t, ht, htrue⟩ := he
      obtain ⟨ts, hts, hall, hany⟩ := ih
      refine ⟨t :: ts, .cons ht hts, ?_, ?_⟩
      · rw [List.forall_mem_cons, List.forall_mem_cons, htrue, hall]
      · rw [List.mem_cons, eq_comm, htrue, hany, List.exists_mem_cons_iff]

theorem says_and {Ps : List Prop} {es : List Expr} (h : List.Forall₂ (Says J device now) Ps es) :
    Says J device now (∀ p ∈ Ps, p) (.app .and es) := by
  obtain ⟨ts, hts, hall, -⟩ := exists_truths h
  exact ⟨_, Means.and hts, Kleene.all_eq_true.trans hall⟩

theorem says_or {Ps : List Prop} {es : List Expr} (h : List.Forall₂ (Says J device now) Ps es) :
    Says J device now (∃ p ∈ Ps, p) (.app .or es) := by
  obtain ⟨ts, hts, -, hany⟩ := exists_truths h
  exact ⟨_, Means.or hts, Kleene.any_eq_true.trans hany⟩

theorem Says.single {P : Prop} {e : Expr} (h : Says J device now P e) : SaysAll J device now P [e] :=
  ⟨[P], .cons h .nil, List.forall_mem_singleton⟩

theorem saysAll_nil : SaysAll J device now True [] := ⟨[], .nil, by simp⟩

theorem SaysAll.append {P Q : Prop} {es fs : List Expr} (h : SaysAll J device now P es)
    (h' : SaysAll J device now Q fs) : SaysAll J device now (P ∧ Q) (es ++ fs) := by
  obtain ⟨Ps, hes, hP⟩ := h
  obtain ⟨Qs, hfs, hQ⟩ := h'
  exact ⟨Ps ++ Qs, List.rel_append hes hfs, by rw [List.forall_mem_append, hP, hQ]⟩

theorem SaysAll.joined {P : Prop} {es : List Expr} (h : SaysAll J device now P es) :
    Says J device now P (joined es) := by
  obtain ⟨Ps, hes, hP⟩ := h
  refine Says.congr ?_ hP
  cases hes with
  | nil => exact ⟨some true, Means.bool true, by simp⟩
  | cons he hes =>
      cases hes with
      | nil => exact he.congr (@List.forall_mem_singleton _ id _).symm
      | cons he' hes => exact says_and (.cons he (.cons he' hes))

theorem SaysAll.conjoined {P : Prop} {es : List Expr} (h : SaysAll J device now P es) :
    SaysAll J device now P (conjoined es) := by
  obtain ⟨Ps, hes, hP⟩ := h
  cases hes with
  | nil => exact ⟨[], .nil, hP⟩
  | cons he hes =>
      cases hes with
      | nil => exact ⟨_, .cons he .nil, hP⟩
      | cons he' hes => exact ((says_and (.cons he (.cons he' hes))).congr hP).single

theorem says_present (k : JsString) :
    Says J device now (device k ≠ none) (.app .isNotNull [.ofParam k]) :=
  ⟨_, Means.isNotNull (Means.evaluate_param k), by simp⟩

theorem says_absent (k : JsString) :
    Says J device now (device k = none) (.app .isNull [.ofParam k]) :=
  ⟨_, Means.isNull (Means.evaluate_param k), by simp⟩

theorem says_compareParam {op : Op} (hop : op.IsCompare) (k : JsString) (v : Value) :
    Says J device now (∃ w, device k = some w ∧ op.holds (w.compare v) = true)
      (compareParam op k v) := by
  refine ⟨_, Means.compare hop (Means.evaluate_param k) (evaluate_lit (some v)), ?_⟩
  cases device k <;> simp [compareTruth]

/-- What is made of a comparison says that it holds. -/
theorem says_comparison (c : Comparator) (k : JsString) (v : Value) :
    ∃ exp, comparison k c.name = some exp
      ∧ Says J device now (c.Holds v (device k)) (exp v) := by
  have hcompare : ∀ {op : Op}, op.IsCompare → (∀ w : Value, op.holds (w.compare v) = true
      ↔ c.Holds v (some w)) → ¬ c.Holds v none →
      Says J device now (c.Holds v (device k)) (compareParam op k v) := by
    intro op hop hsome hnone
    refine (says_compareParam hop k v).congr ?_
    cases device k with
    | none => simpa using hnone
    | some w => simpa using hsome w
  cases c with
  | eq => exact ⟨_, rfl, hcompare .eq (fun w => by simp [Op.holds, Comparator.Holds]) id⟩
  | ne =>
      refine ⟨_, rfl, (says_or (.cons (says_compareParam .ne k v)
        (.cons (says_absent k) .nil))).congr ?_⟩
      rw [List.exists_mem_cons_iff, List.exists_mem_cons_iff]
      cases device k <;> simp [Op.holds, Comparator.Holds]
  | lt => exact ⟨_, rfl, hcompare .lt (fun w => by simp [Op.holds, Comparator.Holds]) id⟩
  | lte => exact ⟨_, rfl, hcompare .le (fun w => by simp [Op.holds, Comparator.Holds]) id⟩
  | gt => exact ⟨_, rfl, hcompare .gt (fun w => by simp [Op.holds, Comparator.Holds]) id⟩
  | gte => exact ⟨_, rfl, hcompare .ge (fun w => by simp [Op.holds, Comparator.Holds]) id⟩

/-! ## Properties -/

theorem tagTest_returns (op : Op) (tag : JsString) {P : Prop}
    (h : ∀ name, Tag.encodeTag tag = some name →
      Says J device now P (.app op [.ofParam (js "Tags." ++ name)])) :
    ReturnsIff (tagTest op tag) (WellFormed tag) (Says J device now P) := by
  unfold tagTest
  cases htag : Tag.encodeTag tag with
  | none =>
      have hformed : ¬ WellFormed tag := by
        rw [← encodeTag_isSome, htag]
        simp
      exact ⟨fun h => absurd h hformed, fun _ h => nomatch h⟩
  | some name =>
      have hformed : WellFormed tag := by
        rw [← encodeTag_isSome, htag]
        rfl
      exact (ReturnsIff.pure (h name htag)).congr (iff_of_true trivial hformed)

theorem hasTag_iff {tag name : JsString} (h : Tag.encodeTag tag = some name) :
    HasTag device tag ↔ device (js "Tags." ++ name) ≠ none := by
  constructor
  · rintro ⟨name', hname', hpresent⟩
    obtain rfl := Option.some.inj (h.symm.trans hname')
    exact hpresent
  · exact fun hpresent => ⟨name, h, hpresent⟩

theorem tagTest_present (tag : JsString) : ReturnsIff (tagTest .isNotNull tag) (WellFormed tag)
    (Says J device now (HasTag device tag)) :=
  tagTest_returns _ _ fun _ hname => (says_present _).congr (hasTag_iff hname).symm

theorem tagTest_absent (tag : JsString) : ReturnsIff (tagTest .isNull tag) (WellFormed tag)
    (Says J device now (¬ HasTag device tag)) :=
  tagTest_returns _ _ fun _ hname =>
    (says_absent _).congr (by rw [hasTag_iff hname, not_ne_iff])

theorem tagsEntry_returns (t : Bool × JsString) :
    ReturnsIff (tagsEntry (if t.1 then js "$eq" else js "$ne", .str t.2)) (WellFormed t.2)
      (Says J device now (t.1 = true ↔ HasTag device t.2)) := by
  obtain ⟨wanted, tag⟩ := t
  cases wanted with
  | true =>
      have heq : tagsEntry (js "$eq", .str tag) = tagTest .isNotNull tag := rfl
      simpa [heq] using tagTest_present tag
  | false =>
      have hne : tagsEntry (js "$ne", .str tag) = tagTest .isNull tag := rfl
      simpa [hne] using tagTest_absent tag

/-- What is said of each element of a list. -/
theorem saysAll_of_forall₂ {α : Type} {as : List α} {P : α → Prop} {es : List Expr}
    (h : List.Forall₂ (fun a => Says J device now (P a)) as es) :
    SaysAll J device now (∀ a ∈ as, P a) es :=
  ⟨as.map P, List.forall₂_map_left_iff.mpr h, List.forall_mem_map⟩

theorem paramEntry_returns (p : ParamName) (t : Comparator × Value) :
    ReturnsIff (paramEntry p.name (t.1.name, ofPrimitive t.2)) True
      (Says J device now (t.1.Holds t.2 (device p.name))) := by
  obtain ⟨exp, hexp, hsays⟩ := @says_comparison J device now t.1 p.name t.2
  have hprimitive : primitive (ofPrimitive t.2) = some t.2 := by
    cases t.2 <;> rfl
  rw [paramEntry, hexp]
  simp only [hprimitive]
  exact ReturnsIff.pure hsays

theorem tagExists_returns (presence : Presence) :
    tagExists presence.toJson = .ok presence.wanted := by
  cases presence <;> rfl

/-- The properties that are not queries again. -/
theorem plainExpressions_returns (p : ParamName) {v : Json} {ok : Prop} {post : List Expr → Prop}
    (h : ReturnsIff (paramExpressions p.name v) ok post) :
    ReturnsIff (plainExpressions J p.name v) ok post := by
  rw [plainExpressions, if_neg p.notTags, if_neg p.noTag]
  exact h

mutual

theorem entry_returns (c : Condition) : ReturnsIff (entry J c.toJson) c.TagsFormed
    (SaysAll J device now (c.Satisfied device)) := by
  match c with
  | .and queries =>
      have hentry : entry J (Condition.and queries).toJson
          = elements J (queriesJson queries) >>= fun args => pure [.app .and args] := by
        rw [Condition.toJson, entry, if_pos (by decide), members, if_pos rfl]
      rw [hentry, Condition.TagsFormed, Condition.Satisfied]
      refine ((elements_returns queries).bind ?_).congr (iff_of_eq (and_true _))
      rintro args ⟨Ps, hargs, hall, -⟩
      exact ReturnsIff.pure ((says_and hargs).congr hall).single
  | .or queries =>
      have hentry : entry J (Condition.or queries).toJson
          = elements J (queriesJson queries) >>= fun args => pure [.app .or args] := by
        rw [Condition.toJson, entry, if_pos (by decide), members, if_neg (by decide), if_pos rfl]
      rw [hentry, Condition.TagsFormed, Condition.Satisfied]
      refine ((elements_returns queries).bind ?_).congr (iff_of_eq (and_true _))
      rintro args ⟨Ps, hargs, -, hany⟩
      exact ReturnsIff.pure ((says_or hargs).congr hany).single
  | .tag tag =>
      have hentry : entry J (Condition.tag tag).toJson
          = tagTest .isNotNull tag >>= fun e => pure [e] := by
        rw [Condition.toJson, entry, if_neg (by decide), plainExpressions, if_pos rfl,
          tagsExpressions]
      rw [hentry, Condition.TagsFormed, Condition.Satisfied]
      exact ((tagTest_present tag).bind fun e he => ReturnsIff.pure he.single).congr
        (iff_of_eq (and_true _))
  | .tags tests =>
      have hentry : entry J (Condition.tags tests).toJson
          = (tests.map fun t => (if t.1 then js "$eq" else js "$ne", Json.str t.2)).mapM tagsEntry
            >>= fun conjs => pure (conjoined conjs) := by
        rw [Condition.toJson, entry, if_neg (by decide), plainExpressions, if_pos rfl,
          tagsExpressions]
      rw [hentry, Condition.TagsFormed, Condition.Satisfied]
      refine ((ReturnsIff.mapM fun t _ => @tagsEntry_returns J device now t).bind fun es hes => ?_).congr
        (iff_of_eq (and_true _))
      exact ReturnsIff.pure (saysAll_of_forall₂ hes).conjoined
  | .present name presence =>
      have hentry : entry J (Condition.present name presence).toJson = .ok
          [.app (if presence.wanted then .isNotNull else .isNull) [.ofParam (js "Tags." ++ name)]] := by
        have hdollar : ¬ (js "Tags." ++ name).head? = some '$'.toNat := by
          show ¬ some 'T'.toNat = some '$'.toNat
          decide
        have htags : ¬ js "Tags." ++ name = js "_tags" := fun h =>
          absurd (List.cons.inj h).1 (by decide)
        rw [Condition.toJson, entry, if_neg hdollar, plainExpressions, if_neg htags,
          if_pos (List.prefix_append _ _), tagExists_returns]
        rfl
      rw [hentry, Condition.Satisfied]
      refine ReturnsIff.pure (Says.single ?_)
      cases presence.wanted with
      | true => exact (says_present _).congr (by simp)
      | false => exact (says_absent _).congr (by simp)
  | .param p v =>
      rw [Condition.toJson, entry, if_neg p.noOperator]
      refine plainExpressions_returns p ?_
      have hexpressions : paramExpressions p.name (ofPrimitive v)
          = .ok [compareParam .eq p.name v] := by
        cases v <;> rfl
      obtain ⟨exp, hexp, hsays⟩ := @says_comparison J device now .eq p.name v
      obtain rfl := Option.some.inj hexp
      rw [hexpressions, Condition.Satisfied]
      exact ReturnsIff.pure hsays.single
  | .compare p tests =>
      rw [Condition.toJson, entry, if_neg p.noOperator]
      refine plainExpressions_returns p ?_
      rw [paramExpressions, Condition.Satisfied]
      exact ((ReturnsIff.mapM fun t _ => @paramEntry_returns J device now p t).bind fun es hes =>
        ReturnsIff.pure (saysAll_of_forall₂ hes).conjoined).congr (by simp [Condition.TagsFormed])

theorem entries_returns (q : List Condition) : ReturnsIff (entries J (queryJson q)) (TagsFormed q)
    (SaysAll J device now (Satisfied device q)) := by
  match q with
  | [] => exact ReturnsIff.pure saysAll_nil
  | c :: cs =>
      rw [queryJson, entries]
      exact ((entry_returns c).bind fun es hes => (entries_returns cs).bind fun fs hfs =>
        ReturnsIff.pure (hes.append hfs)).congr (by rw [and_true, TagsFormed])

theorem elements_returns (qs : List (List Condition)) :
    ReturnsIff (elements J (queriesJson qs)) (AllFormed qs) fun es => ∃ Ps,
      List.Forall₂ (Says J device now) Ps es ∧ ((∀ p ∈ Ps, p) ↔ AllSatisfied device qs)
        ∧ ((∃ p ∈ Ps, p) ↔ AnySatisfied device qs) := by
  match qs with
  | [] => exact ReturnsIff.pure ⟨[], .nil, by simp [AllSatisfied], by simp [AnySatisfied]⟩
  | q :: qs =>
      have hq : ReturnsIff (recursive J (.obj (queryJson q))) (TagsFormed q)
          (Says J device now (Satisfied device q)) := by
        rw [recursive]
        exact ((entries_returns q).bind fun es hes => ReturnsIff.pure hes.joined).congr
          (iff_of_eq (and_true _))
      rw [queriesJson, elements]
      refine (hq.bind fun e he => (elements_returns qs).bind fun es hes => ?_).congr
        (by rw [and_true, AllFormed])
      obtain ⟨Ps, hPs, hall, hany⟩ := hes
      refine ReturnsIff.pure ⟨_ :: Ps, .cons he hPs, ?_, ?_⟩
      · rw [List.forall_mem_cons, hall, AllSatisfied]
      · rw [List.exists_mem_cons_iff, hany, AnySatisfied]

end

end Truth

/-! ## The meaning of a converted query -/

theorem converted (J : Js) (device : Lookup) (now : Option ℚ) (q : Query) :
    ReturnsIff (convertOldPrecondition J (queryJson q)) (TagsFormed q)
      (Says J device now (Satisfied device q)) := by
  cases q with
  | nil => exact ReturnsIff.pure saysAll_nil.joined
  | cons c cs =>
      rw [convertOldPrecondition, if_neg (by simp [queryJson]), recursive]
      exact ((entries_returns (c :: cs)).bind fun es hes => ReturnsIff.pure hes.joined).congr
        (iff_of_eq (and_true _))

/-- A query is converted, to an expression that is true on the devices that
satisfy it, just when the tags in `_tags` are well formed. -/
theorem convertOldPrecondition_iff (J : Js) (device : Lookup) (now : Option ℚ) (q : Query) :
    (∃ e truthy, convertOldPrecondition J (queryJson q) = .ok e
      ∧ truthyOn J device now e = .ok truthy ∧ (truthy = true ↔ Satisfied device q))
    ↔ TagsFormed q := by
  have h := converted J device now q
  constructor
  · rintro ⟨e, _, he, -⟩
    exact (h.result e he).1
  · intro hformed
    obtain ⟨e, he⟩ := h.returns hformed
    obtain ⟨t, ht, htrue⟩ := (h.result e he).2
    exact ⟨e, _, he, ht.truthyOn_eq, by rw [decide_eq_true_eq, htrue]⟩

/-- A lone surrogate in a tag. -/
theorem surrogate_refused : ¬ ∀ (J : Js) (device : Lookup) (now : Option ℚ) (q : Query),
    ∃ e truthy, convertOldPrecondition J (queryJson q) = .ok e
      ∧ truthyOn J device now e = .ok truthy ∧ (truthy = true ↔ Satisfied device q) := by
  intro h
  obtain ⟨e, _, he, -⟩ := h idleJs (fun _ => none) none [.tag [0xD800]]
  have hthrow : convertOldPrecondition idleJs (queryJson [.tag [0xD800]]) = .error .uriError := rfl
  rw [hthrow] at he
  cases he

end OldPrecondition

end GenieAcs
