import GenieAcs.Lib.InsMap
import GenieAcs.Lib.Results
import GenieAcs.Normalize
import Mathlib.Data.List.Induction

/-!
# Write permission

`getValidator` of `lib/common/authorizer.ts`. Several validators are put into one OR as
a list, which is a single argument: an array whose operator is the first validator. So
they count only if that is the name of an operator (`write_permitted_iff`).
-/

namespace GenieAcs

/-! ## Permissions -/

/-- What a permission says of a resource type; the filter is for reading. -/
structure ResourceAccess where
  access : ℚ
  validate : Option Expr

/-- `PermissionSet`: permissions, each for some resource types. -/
abbrev PermissionSet := List (InsMap JsString ResourceAccess)

/-- The closure that `getValidator` returns. -/
structure Validator where
  resourceType : JsString
  validators : List Expr

/-- `validatorCache` goes by the identity of the resource, a number here. -/
structure Authorizer where
  permissionSets : List PermissionSet
  validatorCache : List (Nat × Validator)

def validatorOf (resourceType : JsString) (perm : InsMap JsString ResourceAccess) : Option Expr :=
  match perm.get? resourceType with
  | some r =>
      if 3 ≤ r.access then
        match r.validate with
        | some e => if e.truthy then some e else none
        | none => none
      else none
  | none => none

def validatorsOf (permissionSets : List PermissionSet) (resourceType : JsString) : List Expr :=
  permissionSets.flatten.filterMap (validatorOf resourceType)

namespace Authorizer

def new (permissionSets : List PermissionSet) : Authorizer := ⟨permissionSets, []⟩

def getValidator (a : Authorizer) (resourceType : JsString) (resource : Nat) :
    Validator × Authorizer :=
  match a.validatorCache.lookup resource with
  | some v => (v, a)
  | none =>
      let v : Validator := ⟨resourceType, validatorsOf a.permissionSets resourceType⟩
      (v, { a with validatorCache := (resource, v) :: a.validatorCache })

/-- The authorizer after some calls. -/
def after (a : Authorizer) (calls : List (JsString × Nat)) : Authorizer :=
  calls.foldl (fun a call => (a.getValidator call.1 call.2).2) a

end Authorizer

/-! ## Validators -/

section

variable (J : Js) (obj : Lookup) (now : Option ℚ)

/-- One node in `evaluate`, whose `obj` is a function here: it splits the name, which has
to be a string. What it reads of the mutation is `obj`. -/
def validatorNode (e : Shape Expr) : Except JsError Expr :=
  match e.toExpr with
  | .app .param args =>
      match arg args 0 with
      | .lit (some (.str name)) => pure (.lit (obj name))
      | .lit (some _) => throw .typeError
      | _ => evaluateNode J (some obj) now (.app .param args)
  | e => evaluateNode J (some obj) now e

def evaluateValidator (e : Expr) : Except JsError Expr := e.map (validatorNode J obj now)

/-- The operator an array has if its first element is this. -/
def operatorOf : Expr → Option Op
  | .lit (some (.str name)) =>
      [Op.and, .or, .not, .eq, .ne, .gt, .ge, .lt, .le, .like, .notLike, .isNull, .isNotNull, .add,
        .sub, .mul, .div, .mod, .concat, .case, .func, .param].find? fun op => op.name = name
  | _ => none

/-- A list of expressions in the place of one. Its first element is not evaluated; if
that is no operator, the list stays an array that is no expression, `none`. -/
def evaluateArray : List Expr → Except JsError (Option Expr)
  | [] => pure none
  | v :: vs =>
      match operatorOf v with
      | some op => do
          let e ← evaluateValidator J obj now (.app op vs)
          pure (some e)
      | none => do
          let _ ← Expr.mapArgs (validatorNode J obj now) vs
          pure none

/-- `["OR", validators]`, with `none` for an OR of an array that is no expression. -/
def evaluateUnion (validators : List Expr) : Except JsError (Option Expr) := do
  let e ← evaluateArray J obj now validators
  pure (e.map fun e => evaluateOr [e])

/-- The closure, called with a mutation. -/
def Validator.validate (v : Validator) : Except JsError Bool :=
  match v.validators with
  | [] => pure false
  | [e] => do
      let res ← evaluateValidator J obj now e
      pure (!res.isArray && res.truthy)
  | validators => do
      let res ← evaluateUnion J obj now validators
      pure (res.any fun res => !res.isArray && res.truthy)

/-! ## What is to be permitted -/

/-- The expression evaluates to a literal that is true. -/
def Grants (e : Expr) : Prop :=
  ∃ v, evaluateValidator J obj now e = .ok (.lit v) ∧ (Expr.lit v).truthy = true

/-- Some permission for the resource type with write access grants the mutation. -/
def Permitted (permissionSets : List PermissionSet) (resourceType : JsString) : Prop :=
  ∃ permissions ∈ permissionSets, ∃ perm ∈ permissions, ∃ r, perm.get? resourceType = some r ∧
    3 ≤ r.access ∧ ∃ e, r.validate = some e ∧ Grants J obj now e

/-- What the list of validators has to be like: there is one at most; or none of them
grants the mutation, and the first is no operator; or the first is an operator, and with
the others as its arguments it grants the mutation. -/
def UnionGrants : List Expr → Prop
  | [] => True
  | [_] => True
  | v :: vs =>
      match operatorOf v with
      | some op => Grants J obj now (.app op vs)
      | none => ∀ e ∈ v :: vs, ¬ Grants J obj now e

end

/-! ## Proofs -/

section

variable {J : Js} {obj : Lookup} {now : Option ℚ} {e : Expr} {vs : List Expr}

theorem grants_of_str {s : JsString} (h : s ≠ []) : Grants J obj now (.lit (some (.str s))) :=
  ⟨some (.str s), rfl, decide_eq_true h⟩

theorem operatorOf_grants {op : Op} (h : operatorOf e = some op) : Grants J obj now e := by
  unfold operatorOf at h
  split at h
  · rename_i name
    apply grants_of_str
    rintro rfl
    cases h
  · cases h

theorem not_grants_of_falsy (h : e.truthy = false) : ¬ Grants J obj now e := by
  rintro ⟨v, hv, htruthy⟩
  cases e with
  | lit w =>
      cases hv
      rw [h] at htruthy
      cases htruthy
  | app op args => cases h

theorem validatorOf_eq_some {resourceType : JsString} {perm : InsMap JsString ResourceAccess} :
    validatorOf resourceType perm = some e ↔
      ∃ r, perm.get? resourceType = some r ∧ 3 ≤ r.access ∧ r.validate = some e ∧ e.truthy = true := by
  unfold validatorOf
  cases perm.get? resourceType with
  | none => simp
  | some r =>
      cases hv : r.validate with
      | none => simp [hv]
      | some e' =>
          simp only [Option.some.injEq, exists_eq_left', hv]
          split_ifs with haccess htruthy
          · constructor
            · intro h
              exact ⟨haccess, Option.some.inj h, Option.some.inj h ▸ htruthy⟩
            · rintro ⟨-, rfl, -⟩
              rfl
          · refine iff_of_false (fun h => nomatch h) ?_
            rintro ⟨-, rfl, h⟩
            exact htruthy h
          · exact iff_of_false (fun h => nomatch h) fun h => haccess h.1

/-- A falsy validator is left out, and it would grant nothing. -/
theorem permitted_iff {permissionSets : List PermissionSet} {resourceType : JsString} :
    Permitted J obj now permissionSets resourceType ↔
      ∃ e ∈ validatorsOf permissionSets resourceType, Grants J obj now e := by
  constructor
  · rintro ⟨permissions, hp, perm, hperm, r, hget, haccess, e, hvalidate, hgrants⟩
    refine ⟨e, List.mem_filterMap.mpr ⟨perm, List.mem_flatten.mpr ⟨permissions, hp, hperm⟩, ?_⟩, hgrants⟩
    refine validatorOf_eq_some.mpr ⟨r, hget, haccess, hvalidate, ?_⟩
    by_contra hfalsy
    exact not_grants_of_falsy (Bool.not_eq_true _ ▸ hfalsy) hgrants
  · rintro ⟨e, he, hgrants⟩
    obtain ⟨perm, hmem, hvalidator⟩ := List.mem_filterMap.mp he
    obtain ⟨permissions, hp, hperm⟩ := List.mem_flatten.mp hmem
    obtain ⟨r, hget, haccess, hvalidate, -⟩ := validatorOf_eq_some.mp hvalidator
    exact ⟨permissions, hp, perm, hperm, r, hget, haccess, e, hvalidate, hgrants⟩

theorem literal_iff {res : Expr} :
    (!res.isArray && res.truthy) = true ↔ ∃ v, res = .lit v ∧ (Expr.lit v).truthy = true := by
  cases res with
  | lit v => simp [Expr.isArray]
  | app op args => simp [Expr.isArray]

theorem evaluateOr_literal {es : List Expr} :
    (!(evaluateOr es).isArray && (evaluateOr es).truthy) = true ↔ orArgs es = none := by
  unfold evaluateOr
  split
  · rename_i hargs
    exact iff_of_true rfl hargs
  · rename_i hargs
    rw [hargs]
    split <;> exact iff_of_false Bool.false_ne_true fun h => nomatch h
  · rename_i hargs
    rw [hargs]
    exact iff_of_false Bool.false_ne_true (Option.some_ne_none _)
  · rename_i hargs
    rw [hargs]
    exact iff_of_false Bool.false_ne_true (Option.some_ne_none _)

/-- An OR of one argument is true when it is. -/
theorem evaluateOr_singleton {res : Expr} :
    (!(evaluateOr [res]).isArray && (evaluateOr [res]).truthy) = true ↔
      (!res.isArray && res.truthy) = true := by
  rw [evaluateOr_literal]
  cases res with
  | lit v =>
      rw [orArgs, show (Expr.lit v).isArray = false from rfl, Bool.not_false, Bool.true_and]
      split_ifs with htruthy
      · exact iff_of_true rfl htruthy
      · exact iff_of_false (Option.some_ne_none _) htruthy
  | app op args =>
      refine iff_of_false ?_ Bool.false_ne_true
      cases op <;> exact Option.some_ne_none _

theorem validate_single {resourceType : JsString} :
    Validator.validate J obj now ⟨resourceType, [e]⟩ = .ok true ↔ Grants J obj now e := by
  show (evaluateValidator J obj now e >>= _) = _ ↔ _
  rw [bind_eq_ok_iff]
  constructor
  · rintro ⟨res, hres, htrue⟩
    obtain ⟨v, rfl, htruthy⟩ := literal_iff.mp (Except.ok.inj htrue)
    exact ⟨v, hres, htruthy⟩
  · rintro ⟨v, hv, htruthy⟩
    exact ⟨.lit v, hv, congrArg Except.ok (literal_iff.mpr ⟨v, rfl, htruthy⟩)⟩

/-- The list is evaluated as one argument. -/
theorem validate_several {resourceType : JsString} {v w : Expr} :
    Validator.validate J obj now ⟨resourceType, v :: w :: vs⟩ = .ok true ↔
      ∃ op, operatorOf v = some op ∧ Grants J obj now (.app op (w :: vs)) := by
  show (evaluateUnion J obj now (v :: w :: vs) >>= _) = _ ↔ _
  rw [bind_eq_ok_iff]
  cases hop : operatorOf v with
  | none =>
      refine iff_of_false ?_ fun h => Option.some_ne_none _ h.choose_spec.1.symm
      rintro ⟨res, hres, htrue⟩
      rw [evaluateUnion, bind_eq_ok_iff] at hres
      obtain ⟨e, he, hres⟩ := hres
      rw [evaluateArray, hop] at he
      obtain ⟨-, -, he⟩ := bind_eq_ok_iff.mp he
      cases he
      cases hres
      cases htrue
  | some op =>
      constructor
      · rintro ⟨res, hres, htrue⟩
        rw [evaluateUnion, bind_eq_ok_iff] at hres
        obtain ⟨e, he, hres⟩ := hres
        rw [evaluateArray, hop] at he
        obtain ⟨e', he', he⟩ := bind_eq_ok_iff.mp he
        cases he
        cases hres
        have hliteral := evaluateOr_singleton.mp (Except.ok.inj htrue)
        obtain ⟨u, rfl, htruthy⟩ := literal_iff.mp hliteral
        exact ⟨op, rfl, u, he', htruthy⟩
      · rintro ⟨op', hop', u, hu, htruthy⟩
        obtain rfl := Option.some.inj hop'
        refine ⟨some (evaluateOr [.lit u]), ?_, ?_⟩
        · rw [evaluateUnion]
          have harray : evaluateArray J obj now (v :: w :: vs) = .ok (some (.lit u)) := by
            rw [evaluateArray, hop]
            exact bind_ok hu rfl
          exact bind_ok harray rfl
        · exact congrArg Except.ok (evaluateOr_singleton.mpr (literal_iff.mpr ⟨u, rfl, htruthy⟩))

theorem validate_iff (resourceType : JsString) (validators : List Expr) :
    (Validator.validate J obj now ⟨resourceType, validators⟩ = .ok true ↔
        ∃ e ∈ validators, Grants J obj now e) ↔ UnionGrants J obj now validators := by
  match validators with
  | [] =>
      refine iff_of_true (iff_of_false ?_ ?_) trivial
      · intro h
        cases h
      · rintro ⟨e, he, -⟩
        cases he
  | [e] =>
      refine iff_of_true ?_ trivial
      rw [validate_single]
      simp only [List.mem_singleton, exists_eq_left]
  | v :: w :: vs =>
      rw [validate_several]
      show _ ↔ match operatorOf v with | some _ => _ | none => _
      cases hop : operatorOf v with
      | none =>
          have hno : ¬ ∃ op, (none : Option Op) = some op ∧ Grants J obj now (.app op (w :: vs)) :=
            fun h => Option.some_ne_none _ h.choose_spec.1.symm
          simp only [hno, false_iff, not_exists, not_and]
      | some op =>
          have hsome : ∃ e ∈ v :: w :: vs, Grants J obj now e :=
            ⟨v, List.mem_cons_self .., operatorOf_grants hop⟩
          simp only [hsome, iff_true, Option.some.injEq, exists_eq_left']

end

/-! ## Calls -/

section

variable {a : Authorizer} {resourceType : JsString} {resource : Nat}

/-- What is cached for a resource was made for the type of some call with it. -/
def Authorizer.Cached (calls : List (JsString × Nat)) (a : Authorizer) : Prop :=
  ∀ resource v, a.validatorCache.lookup resource = some v →
    (v.resourceType, resource) ∈ calls ∧ v.validators = validatorsOf a.permissionSets v.resourceType

theorem getValidator_sets :
    (a.getValidator resourceType resource).2.permissionSets = a.permissionSets := by
  unfold Authorizer.getValidator
  split <;> rfl

theorem cached_getValidator {calls : List (JsString × Nat)} (h : a.Cached calls) :
    (a.getValidator resourceType resource).2.Cached (calls ++ [(resourceType, resource)]) := by
  unfold Authorizer.getValidator
  split
  · intro resource' v hv
    obtain ⟨hmem, heq⟩ := h resource' v hv
    exact ⟨List.mem_append_left _ hmem, heq⟩
  · intro resource' v hv
    dsimp only at hv
    rw [List.lookup_cons] at hv
    split at hv
    · rename_i heq
      cases hv
      rw [beq_iff_eq.mp heq]
      exact ⟨List.mem_append_right _ (List.mem_singleton_self _), rfl⟩
    · obtain ⟨hmem, heq⟩ := h resource' v hv
      exact ⟨List.mem_append_left _ hmem, heq⟩

theorem cached_after (permissionSets : List PermissionSet) (calls : List (JsString × Nat)) :
    ((Authorizer.new permissionSets).after calls).Cached calls ∧
      ((Authorizer.new permissionSets).after calls).permissionSets = permissionSets := by
  induction calls using List.reverseRecOn with
  | nil =>
      refine ⟨?_, rfl⟩
      intro resource v hv
      cases hv
  | append_singleton calls call ih =>
      obtain ⟨hcached, hsets⟩ := ih
      rw [Authorizer.after, List.foldl_append]
      exact ⟨cached_getValidator hcached, getValidator_sets.trans hsets⟩

/-- A resource that comes with one type gets the validators of that type. -/
theorem getValidator_eq {permissionSets : List PermissionSet} {calls : List (JsString × Nat)}
    (h : ∀ call ∈ calls, call.2 = resource → call.1 = resourceType) :
    (((Authorizer.new permissionSets).after calls).getValidator resourceType resource).1 =
      ⟨resourceType, validatorsOf permissionSets resourceType⟩ := by
  obtain ⟨hcached, hsets⟩ := cached_after permissionSets calls
  unfold Authorizer.getValidator
  split
  · rename_i v hv
    obtain ⟨hmem, hvalidators⟩ := hcached resource v hv
    obtain rfl : v.resourceType = resourceType := h _ hmem rfl
    rw [← hsets, ← hvalidators]
  · rw [hsets]

end

/-- After any calls in which a resource comes with one type: the closure permits what
some permission permits just when the validators make the union they are meant to be. -/
theorem write_permitted_iff (J : Js) (obj : Lookup) (now : Option ℚ)
    (permissionSets : List PermissionSet) (calls : List (JsString × Nat)) (resourceType : JsString)
    (resource : Nat) (hcalls : ∀ call ∈ calls, call.2 = resource → call.1 = resourceType) :
    ((((Authorizer.new permissionSets).after calls).getValidator resourceType resource).1.validate
        J obj now = .ok true ↔ Permitted J obj now permissionSets resourceType) ↔
      UnionGrants J obj now (validatorsOf permissionSets resourceType) := by
  rw [getValidator_eq hcalls, permitted_iff, validate_iff]

/-- A role that may write the devices. -/
def writer : PermissionSet :=
  [InsMap.empty.set (js "devices") ⟨3, some (Expr.ofBool true)⟩]

theorem write_permitted_writer :
    ((((Authorizer.new [writer]).after [(js "devices", 0)]).getValidator (js "devices") 1).1.validate
        idleJs (fun _ => none) (some 1) = .ok true ↔
      Permitted idleJs (fun _ => none) (some 1) [writer] (js "devices")) ↔
      UnionGrants idleJs (fun _ => none) (some 1) (validatorsOf [writer] (js "devices")) :=
  write_permitted_iff idleJs (fun _ => none) (some 1) [writer] [(js "devices", 0)] (js "devices") 1
    fun _ hcall _ => by
      rw [List.mem_singleton.mp hcall]

/-- With the role twice, what it permits is refused. -/
theorem writers_refused :
    ((Authorizer.new [writer]).getValidator (js "devices") 0).1.validate idleJs (fun _ => none)
        (some 1) = .ok true ∧
      Permitted idleJs (fun _ => none) (some 1) [writer, writer] (js "devices") ∧
      ((Authorizer.new [writer, writer]).getValidator (js "devices") 0).1.validate idleJs
        (fun _ => none) (some 1) = .ok false := by
  refine ⟨rfl, ?_, rfl⟩
  refine ⟨writer, List.mem_cons_self .., _, List.mem_cons_self .., _, InsMap.get?_set_self .., le_rfl,
    _, rfl, some (.bool true), rfl, rfl⟩

end GenieAcs
