import GenieAcs.DeclarationVisits
import GenieAcs.Unpack

/-!
# What is to be read and set

A visit puts its path, or the last parameter with attributes above it, in the
sets of what the session is to ask for. For a parameter of the device, an
attribute is asked for just when the latest time declared for it is later than
the time it was read.
-/

namespace GenieAcs

/-! ## The sets of a session -/

/-- `[path, attrGet, attrSet]`. -/
structure VirtualParameterDeclaration where
  path : Path
  attributeTimestamps : Option AttributeTimestamps
  attributeValues : Option AttributeValues

/-- Attributes to be set, `null` where there are none. -/
structure Spa where
  notification : AttrValue
  accessList : AttrValue

/-- What `syncState` holds of what is to be read and set. -/
structure SyncSets where
  refreshAttributes : AttrName → List Path
  exist : List Path
  spv : InsMap Path AttrValue
  spa : InsMap Path Spa
  gpn : List Path
  gpnPatterns : InsMap Path Mask
  tags : InsMap Path (Option Value)
  downloadsValues : InsMap Path (Option Value)
  downloadsDownload : InsMap Path (Option Value)
  reboot : JsNumber
  factoryReset : JsNumber
  virtualParameterDeclarations : List VirtualParameterDeclaration

/-- `add` of a set. -/
def addPath (l : List Path) (p : Path) : List Path := if p ∈ l then l else l ++ [p]

theorem mem_addPath {l : List Path} {p q : Path} : q ∈ addPath l p ↔ q ∈ l ∨ q = p := by
  rw [addPath]
  split_ifs with h
  · exact ⟨Or.inl, fun hq => hq.elim id fun heq => heq ▸ h⟩
  · rw [List.mem_append, List.mem_singleton]

/-- The object flag, `null` when it is not known. -/
def objectFlag (current : Attributes) : AttrValue := ((current .object).map Prod.snd).getD .null

/-- The attribute was read before the time, or never. -/
def isStale (current : Attributes) (a : AttrName) (t : Timestamp) : Bool :=
  match current a with
  | some (stamp, _) => ¬ t ≤ stamp
  | none => true

/-- An attribute of `attrSet` that is not `null`. -/
def AttributeValues.present (values : AttributeValues) (a : AttrName) : Option AttrValue :=
  (values a).filter fun v => v ≠ .null

namespace SyncSets

def refresh (s : SyncSets) (a : AttrName) (p : Path) : SyncSets :=
  { s with refreshAttributes :=
      Function.update s.refreshAttributes a (addPath (s.refreshAttributes a) p) }

/-- `f | gpnPatterns.get(p)`. -/
def orPattern (s : SyncSets) (p : Path) (f : Mask) : SyncSets :=
  { s with gpnPatterns := s.gpnPatterns.set p (f ||| (s.gpnPatterns.get? p).getD 0) }

/-- `spa.get(p)` with its notification or its access list replaced. -/
def setSpa (s : SyncSets) (p : Path) (f : Spa → Spa) : SyncSets :=
  { s with spa := s.spa.set p (f ((s.spa.get? p).getD ⟨.null, .null⟩)) }

end SyncSets

/-! ## What a visit does -/

namespace Visit

variable (v : Visit)

/-- The path is declared with a later time than is known of it. -/
def IsNewer : Prop :=
  v.currentTimestamp < v.declareTimestamp ∧ v.leaf.timestamp < v.declareTimestamp

instance : Decidable v.IsNewer := inferInstanceAs (Decidable (_ ∧ _))

/-- The fragment that the `switch` looks at. -/
def rootFragment : Option JsString :=
  if v.path.head? ≠ some star then v.path.head? else v.leaf.param.head?

/-- `declareAttributeValues.value`, if it is truthy. -/
def declaredValue : Option AttrValue :=
  (v.declareAttributeValues.bind (· .value)).filter fun value => value.truthy

/-- The attributes that are asked for, by their times. -/
def stale : AttributeTimestamps := fun a =>
  (v.declareAttributeTimestamps.bind (· a)).filter fun t =>
    match v.attributes with
    | some current => isStale current a t
    | none => true

/-- What the case of `VirtualParameters` pushes. -/
def virtualDeclaration : Option VirtualParameterDeclaration :=
  let timestamps := if ∃ a ∈ AttrName.all, (v.stale a).isSome then some v.stale else none
  if ¬ v.declareTimestamp ≤ v.currentTimestamp ∨ timestamps.isSome
      ∨ v.declareAttributeValues.isSome then
    some ⟨v.path, timestamps, v.declareAttributeValues⟩
  else none

end Visit

namespace SyncSets

/-- The paths that are to be found: below the last parameter, or this parameter
itself. -/
def refreshLeaf (s : SyncSets) (v : Visit) : SyncSets :=
  if v.IsNewer then
    let leafIsObject := v.leaf.isObject.getD .null
    if v.path = v.leaf.param then { s with exist := addPath s.exist v.leaf.param }
    else if leafIsObject.truthy then
      let s := { s with gpn := addPath s.gpn v.leaf.param }
      if 0 < v.leaf.timestamp then s.orPattern v.leaf.param (Mask.bit v.leaf.param.length)
      else s.orPattern v.path ((Mask.bit v.path.length - 1) ^^^ (Mask.bit v.leaf.param.length - 1))
    else
      let s := s.refresh .object v.leaf.param
      if leafIsObject = .null then
        s.orPattern v.path
          ((Mask.bit s.gpnPatterns.entries.length - 1) ^^^ (Mask.bit v.leaf.param.length - 1))
      else s
  else s

/-- The set that an attribute is asked for in. -/
def refreshAttribute (current : Attributes) (p : Path) (s : SyncSets) (a : AttrName) : SyncSets :=
  if a = .value then
    if objectFlag current = .null then s.refresh .object p
    else if objectFlag current = .num 0 then s.refresh .value p
    else s
  else s.refresh a p

/-- The attributes of the path that are older than what is declared. -/
def refreshOwn (s : SyncSets) (v : Visit) : SyncSets :=
  match v.attributes with
  | some current =>
      (AttrName.all.filter fun a => (v.stale a).isSome).foldl (refreshAttribute current v.path) s
  | none => s

/-- The attributes that are to be set. -/
def setOwn (s : SyncSets) (v : Visit) : SyncSets :=
  match v.attributes, v.declareAttributeValues with
  | some _, some values =>
      let s := match values.present .value with
        | some value => { s with spv := s.spv.set v.path value }
        | none => s
      let s := match values.present .notification with
        | some notification => s.setSpa v.path fun spa => { spa with notification }
        | none => s
      match values.present .accessList with
      | some accessList => s.setSpa v.path fun spa => { spa with accessList }
      | none => s
  | _, _ => s

/-- What is done with the value that is declared for the path of a visit. -/
def onValue (s : SyncSets) (v : Visit) (here : Bool) (f : AttrValue → SyncSets) : SyncSets :=
  match v.declaredValue with
  | some value => if here then f value else s
  | none => s

theorem onValue_frame {α : Type} (g : SyncSets → α) {s : SyncSets} {v : Visit} {here : Bool}
    {f : AttrValue → SyncSets} (hf : ∀ value, g (f value) = g s) :
    g (s.onValue v here f) = g s := by
  unfold onValue
  split
  · split
    · exact hf _
    · rfl
  · rfl

section

/- `device.sanitizeParameterValue`, and `+new Date(value)`. -/
variable (sanitizeParameterValue : Option Value → JsString → Option Value)
  (newDate : Option Value → JsNumber)

/-- The cases of the `switch`. -/
def act (s : SyncSets) (v : Visit) : SyncSets :=
  if v.rootFragment = some (js "Reboot") then
    s.onValue v (v.path.length = 1) fun value => { s with reboot := newDate (value.item 0) }
  else if v.rootFragment = some (js "FactoryReset") then
    s.onValue v (v.path.length = 1) fun value => { s with factoryReset := newDate (value.item 0) }
  else if v.rootFragment = some (js "Tags") then
    s.onValue v (v.path.length = 2 ∧ v.path.wildcard = 0) fun value =>
      { s with
        tags := s.tags.set v.path (sanitizeParameterValue (value.item 0) (js "xsd:boolean")) }
  else if v.rootFragment = some (js "Events") ∨ v.rootFragment = some (js "DeviceID") then s
  else if v.rootFragment = some (js "Downloads") then
    s.onValue v (v.path.length = 3 ∧ v.path.wildcard = 0) fun value =>
      if v.path.getD 2 [] = js "Download" then
        { s with downloadsDownload := s.downloadsDownload.set v.path (value.item 0) }
      else { s with downloadsValues := s.downloadsValues.set v.path (value.item 0) }
  else if v.rootFragment = some (js "VirtualParameters") then
    match v.virtualDeclaration with
    | some declaration =>
        if v.path.length ≤ 2 then
          { s with virtualParameterDeclarations := s.virtualParameterDeclarations ++ [declaration] }
        else s
    | none => s
  else ((s.refreshLeaf v).refreshOwn v).setOwn v

/-- `processDeclarations`, with the declarations of virtual parameters that it
returns; the root becomes a known path. -/
def processDeclarations (d : DeviceData) (m : Declared) (s : SyncSets) : DeviceData × SyncSets :=
  ({ d with paths := d.paths.add [] },
    (visits d m).foldl (act sanitizeParameterValue newDate)
      { s with virtualParameterDeclarations := [] })

/-! ## What the visits ask for -/

/-- The fragments that have a case of their own. -/
def ownCases : List JsString :=
  [js "Reboot", js "FactoryReset", js "Tags", js "Events", js "DeviceID", js "Downloads",
    js "VirtualParameters"]

/-- The visit is of an ordinary parameter. -/
def Ordinary (v : Visit) : Prop := ∀ f ∈ v.rootFragment, f ∉ ownCases

variable {sanitizeParameterValue newDate}

theorem act_ordinary {s : SyncSets} {v : Visit} (h : Ordinary v) :
    act sanitizeParameterValue newDate s v = ((s.refreshLeaf v).refreshOwn v).setOwn v := by
  have hne : ∀ f ∈ ownCases, v.rootFragment ≠ some f := fun f hf heq => h f heq hf
  simp only [ownCases, List.forall_mem_cons] at hne
  obtain ⟨h1, h2, h3, h4, h5, h6, h7, -⟩ := hne
  rw [act, if_neg h1, if_neg h2, if_neg h3, if_neg (not_or.mpr ⟨h4, h5⟩), if_neg h6, if_neg h7]

/-- The other visits ask for no attribute. -/
theorem act_ownCase {s : SyncSets} {v : Visit} (h : ¬ Ordinary v) :
    (act sanitizeParameterValue newDate s v).refreshAttributes = s.refreshAttributes
      ∧ (act sanitizeParameterValue newDate s v).spv = s.spv := by
  refine Prod.mk.inj ?_
  let asks := fun s : SyncSets => (s.refreshAttributes, s.spv)
  show asks (act sanitizeParameterValue newDate s v) = asks s
  unfold act
  split_ifs with h1 h2 h3 h4 h5 _ h6
  · exact onValue_frame asks fun _ => rfl
  · exact onValue_frame asks fun _ => rfl
  · exact onValue_frame asks fun _ => rfl
  · rfl
  · exact onValue_frame asks fun _ => rfl
  · exact onValue_frame asks fun _ => rfl
  · split <;> rfl
  · split <;> rfl
  · refine absurd (fun f hf hmem => ?_) h
    rw [Option.mem_def] at hf
    rw [not_or] at h4
    simp only [ownCases, List.mem_cons, List.not_mem_nil, or_false] at hmem
    rcases hmem with rfl | rfl | rfl | rfl | rfl | rfl | rfl
    · exact h1 hf
    · exact h2 hf
    · exact h3 hf
    · exact h4.1 hf
    · exact h4.2 hf
    · exact h5 hf
    · exact h6 hf

theorem mem_refresh {s : SyncSets} {a b : AttrName} {p q : Path} :
    q ∈ (s.refresh b p).refreshAttributes a ↔ q ∈ s.refreshAttributes a ∨ (a = b ∧ q = p) := by
  rw [refresh]
  by_cases h : a = b
  · subst h
    simp [mem_addPath]
  · simp [h]

@[simp]
theorem orPattern_refreshAttributes (s : SyncSets) (p : Path) (f : Mask) :
    (s.orPattern p f).refreshAttributes = s.refreshAttributes := rfl

@[simp]
theorem setSpa_refreshAttributes (s : SyncSets) (p : Path) (f : Spa → Spa) :
    (s.setSpa p f).refreshAttributes = s.refreshAttributes := rfl

/-- The visit asks for the leaf above it, to learn what is below. -/
def AsksLeaf (v : Visit) (p : Path) : Prop :=
  v.leaf.param = p ∧ v.path ≠ p ∧ v.IsNewer ∧ (v.leaf.isObject.getD .null).truthy = false

theorem mem_refreshLeaf {s : SyncSets} {v : Visit} {a : AttrName} {p : Path} :
    p ∈ (s.refreshLeaf v).refreshAttributes a
      ↔ p ∈ s.refreshAttributes a ∨ (a = .object ∧ AsksLeaf v p) := by
  have hnone : ¬ AsksLeaf v p → (p ∈ s.refreshAttributes a
      ↔ p ∈ s.refreshAttributes a ∨ (a = .object ∧ AsksLeaf v p)) :=
    fun h => ⟨Or.inl, fun h' => h'.elim id fun h' => absurd h'.2 h⟩
  unfold refreshLeaf
  by_cases hnew : v.IsNewer
  · rw [if_pos hnew]
    dsimp only
    by_cases hself : v.path = v.leaf.param
    · rw [if_pos hself]
      exact hnone fun h => h.2.1 (hself.trans h.1)
    · rw [if_neg hself]
      cases hobject : (v.leaf.isObject.getD .null).truthy with
      | true =>
          rw [if_pos rfl]
          have hsame := hnone fun h => by
            rw [AsksLeaf, hobject] at h
            exact nomatch h.2.2.2
          split_ifs <;> exact hsame
      | false =>
          rw [if_neg Bool.false_ne_true]
          have hasks : AsksLeaf v p ↔ p = v.leaf.param :=
            ⟨fun h => h.1.symm, fun h => ⟨h.symm, fun heq => hself (heq.trans h), hnew, hobject⟩⟩
          rw [hasks]
          split_ifs <;> exact mem_refresh
  · rw [if_neg hnew]
    exact hnone fun h => hnew h.2.2.1

/-- The visit asks for an attribute of its own path; whether it has a value is asked
for as the attribute that says so. -/
def AsksOwn (v : Visit) (a : AttrName) : Prop :=
  ∃ current, v.attributes = some current ∧
    (((v.stale a).isSome = true ∧ (a = .value → objectFlag current = .num 0))
      ∨ (a = .object ∧ (v.stale .value).isSome = true ∧ objectFlag current = .null))

theorem mem_refreshAttribute {s : SyncSets} {current : Attributes} {p q : Path} {a b : AttrName} :
    q ∈ (refreshAttribute current p s b).refreshAttributes a
      ↔ q ∈ s.refreshAttributes a ∨ (q = p ∧ ((a = b ∧ (a = .value → objectFlag current = .num 0))
        ∨ (a = .object ∧ b = .value ∧ objectFlag current = .null))) := by
  have hflag : objectFlag current = .null → objectFlag current ≠ .num 0 := by
    intro h h'
    rw [h] at h'
    exact nomatch h'
  unfold refreshAttribute
  split_ifs with hvalue hnull hzero
  · rw [mem_refresh]
    subst hvalue
    grind
  · rw [mem_refresh]
    grind
  · grind
  · rw [mem_refresh]
    grind

theorem mem_refreshOwn {s : SyncSets} {v : Visit} {a : AttrName} {p : Path} :
    p ∈ (s.refreshOwn v).refreshAttributes a
      ↔ p ∈ s.refreshAttributes a ∨ (p = v.path ∧ AsksOwn v a) := by
  unfold refreshOwn AsksOwn
  cases hattrs : v.attributes with
  | none => simp
  | some current =>
      have hgo : ∀ (l : List AttrName) (s : SyncSets),
          p ∈ (l.foldl (refreshAttribute current v.path) s).refreshAttributes a
            ↔ p ∈ s.refreshAttributes a ∨ (p = v.path ∧
              ((a ∈ l ∧ (a = .value → objectFlag current = .num 0))
                ∨ (a = .object ∧ .value ∈ l ∧ objectFlag current = .null))) := by
        intro l
        induction l with
        | nil => simp
        | cons b l ih =>
            intro s
            rw [List.foldl_cons, ih, mem_refreshAttribute, List.mem_cons, List.mem_cons]
            grind
      simp only [hgo, List.mem_filter, AttrName.mem_all, true_and, Option.some.injEq]
      simp

theorem setOwn_refreshAttributes (s : SyncSets) (v : Visit) :
    (s.setOwn v).refreshAttributes = s.refreshAttributes := by
  unfold setOwn
  split
  · dsimp only
    split <;> split <;> split <;> rfl
  · rfl

/-- A visit and the sets of attributes. -/
theorem mem_act {s : SyncSets} {v : Visit} {a : AttrName} {p : Path} :
    p ∈ (act sanitizeParameterValue newDate s v).refreshAttributes a
      ↔ p ∈ s.refreshAttributes a
        ∨ (Ordinary v ∧ (v.path = p ∧ AsksOwn v a ∨ a = .object ∧ AsksLeaf v p)) := by
  by_cases h : Ordinary v
  · rw [act_ordinary h, setOwn_refreshAttributes, mem_refreshOwn, mem_refreshLeaf]
    constructor
    · rintro ((hs | hleaf) | ⟨rfl, hown⟩)
      · exact Or.inl hs
      · exact Or.inr ⟨h, Or.inr hleaf⟩
      · exact Or.inr ⟨h, Or.inl ⟨rfl, hown⟩⟩
    · rintro (hs | ⟨-, ⟨rfl, hown⟩ | hleaf⟩)
      · exact Or.inl (Or.inl hs)
      · exact Or.inr ⟨rfl, hown⟩
      · exact Or.inl (Or.inr hleaf)
  · rw [(act_ownCase h).1]
    exact ⟨Or.inl, fun h' => h'.elim id fun h' => absurd h'.1 h⟩

theorem mem_foldl_act (vs : List Visit) (s : SyncSets) {a : AttrName} {p : Path} :
    p ∈ (vs.foldl (act sanitizeParameterValue newDate) s).refreshAttributes a
      ↔ p ∈ s.refreshAttributes a
        ∨ ∃ v ∈ vs, Ordinary v ∧ (v.path = p ∧ AsksOwn v a ∨ a = .object ∧ AsksLeaf v p) := by
  induction vs generalizing s with
  | nil => simp
  | cons v vs ih =>
      rw [List.foldl_cons, ih, mem_act, or_assoc]
      simp only [List.mem_cons, exists_eq_or_imp]

/-- The value that a visit sets. -/
def valueToSet (v : Visit) : Option AttrValue :=
  v.attributes.bind fun _ => v.declareAttributeValues.bind fun values => values.present .value

instance (v : Visit) : Decidable (Ordinary v) :=
  inferInstanceAs (Decidable (∀ f ∈ v.rootFragment, f ∉ ownCases))

theorem setOwn_spv (s : SyncSets) (v : Visit) (p : Path) :
    (s.setOwn v).spv.get? p
      = if v.path = p then (valueToSet v).or (s.spv.get? p) else s.spv.get? p := by
  have hset : ∀ value, (s.spv.set v.path value).get? p
      = if v.path = p then some value else s.spv.get? p := by
    intro value
    rw [InsMap.get?_set]
    exact if_congr eq_comm rfl rfl
  unfold setOwn valueToSet
  cases v.attributes with
  | none => exact (ite_self _).symm
  | some current =>
      cases v.declareAttributeValues with
      | none => exact (ite_self _).symm
      | some values =>
          dsimp only [Option.bind_some]
          cases values.present .value with
          | none =>
              cases values.present .notification <;> cases values.present .accessList <;>
                exact (ite_self _).symm
          | some value =>
              cases values.present .notification <;> cases values.present .accessList <;>
                exact hset value

theorem refreshLeaf_spv (s : SyncSets) (v : Visit) : (s.refreshLeaf v).spv = s.spv := by
  unfold refreshLeaf
  dsimp only
  split_ifs <;> rfl

theorem refreshOwn_spv (s : SyncSets) (v : Visit) : (s.refreshOwn v).spv = s.spv := by
  unfold refreshOwn
  split
  · rename_i current _
    have hstep : ∀ (s : SyncSets) a, (refreshAttribute current v.path s a).spv = s.spv := by
      intro s a
      unfold refreshAttribute
      split_ifs <;> rfl
    generalize AttrName.all.filter (fun a => (v.stale a).isSome) = l
    induction l generalizing s with
    | nil => rfl
    | cons a l ih => rw [List.foldl_cons, ih, hstep]
  · rfl

theorem foldl_act_spv (vs : List Visit) (s : SyncSets) (p : Path) :
    (vs.foldl (act sanitizeParameterValue newDate) s).spv.get? p
      = (vs.filter fun v => v.path = p).foldl
        (fun r v => if Ordinary v then (valueToSet v).or r else r) (s.spv.get? p) := by
  induction vs generalizing s with
  | nil => rfl
  | cons v vs ih =>
      have hact : (act sanitizeParameterValue newDate s v).spv.get? p
          = if v.path = p ∧ Ordinary v then (valueToSet v).or (s.spv.get? p)
            else s.spv.get? p := by
        by_cases h : Ordinary v
        · rw [act_ordinary h, setOwn_spv, refreshOwn_spv, refreshLeaf_spv]
          exact if_congr (by simp [h]) rfl rfl
        · rw [(act_ownCase h).2, if_neg fun h' => h h'.2]
      rw [List.foldl_cons, ih, hact]
      by_cases hp : v.path = p
      · rw [List.filter_cons_of_pos (by simpa using hp), List.foldl_cons]
        exact congrArg (List.foldl _ · _) (if_congr (by simp [hp]) rfl rfl)
      · rw [List.filter_cons_of_neg (by simpa using hp), if_neg fun h => hp h.1]

end

/-! ## Parameters of the device -/

section

variable {d : DeviceData} {m : Declared}

/-- What a leaf with attributes says of them. -/
def LeafOf (d : DeviceData) (leaf : LeafParam) : Prop :=
  ∀ current, d.attributes.get? leaf.param = some current →
    leaf.isObject.getD .null = objectFlag current

theorem visit_leafOf {leaf : LeafParam} {current : Path} {paths : List Path}
    (h : LeafOf d leaf ∨ (current.wildcard = 0 ∧ ∃ attrs, d.attributes.get? current = some attrs)) :
    LeafOf d (visit d m leaf current paths).leaf := by
  have hplain : ∀ {attrs}, (visit d m leaf current paths).attributes = some attrs →
      d.attributes.get? current = some attrs := by
    intro attrs hattrs
    simp only [visit] at hattrs
    split at hattrs
    · exact hattrs
    · cases hattrs
  have hleaf : (visit d m leaf current paths).leaf
      = leaf.below current (visit d m leaf current paths).attributes
        (visit d m leaf current paths).currentTimestamp := rfl
  rw [hleaf]
  cases hattrs : (visit d m leaf current paths).attributes with
  | some attrs =>
      intro attrs' hattrs'
      rw [LeafParam.below, hplain hattrs] at hattrs'
      obtain rfl := Option.some.inj hattrs'
      rfl
  | none =>
      rcases h with h | ⟨hzero, attrs, hget⟩
      · exact h
      · simp only [visit, hzero, decide_true, if_true, hget] at hattrs
        cases hattrs

theorem func_leafOf {fuel : Nat} {leaf : LeafParam} {paths : List Path} {v : Visit}
    (h : ∀ current, paths.head? = some current → LeafOf d leaf
      ∨ (current.wildcard = 0 ∧ ∃ attrs, d.attributes.get? current = some attrs))
    (hv : v ∈ func d m fuel leaf paths) : LeafOf d v.leaf := by
  induction fuel generalizing leaf paths with
  | zero => exact nomatch hv
  | succ fuel ih =>
      cases paths with
      | nil => exact nomatch hv
      | cons current rest =>
          have hvisit : LeafOf d (visit d m leaf current (current :: rest)).leaf :=
            visit_leafOf (h current rfl)
          rw [func_succ] at hv
          rcases List.mem_cons.mp hv with rfl | hv
          · exact hvisit
          · obtain ⟨e, -, hv⟩ := List.mem_flatMap.mp hv
            split at hv
            · exact ih (fun _ _ => Or.inl hvisit) hv
            · exact nomatch hv

/-- The leaf that the first call is given has no attributes, or is visited. -/
theorem visits_leafOf (hlen : ∀ q ∈ d.paths, q.length ≤ 30) {v : Visit} (hv : v ∈ visits d m) :
    LeafOf d v.leaf := by
  rw [visits] at hv
  split at hv
  · cases hv
  · refine func_leafOf (fun current hcur => ?_) hv
    obtain rfl : current = [] := Option.some.inj (hcur.symm.trans (stage_root hlen []).head)
    cases hroot : d.attributes.get? [] with
    | some attrs => exact Or.inr ⟨rfl, attrs, rfl⟩
    | none => exact Or.inl fun attrs hattrs => absurd (hroot.symm.trans hattrs) (by simp)

/-- The latest time declared for an attribute of `p` is later than the time it was
read, or it was not read. -/
def Stale (m : Declared) (current : Attributes) (p : Path) (a : AttrName) : Prop :=
  ∃ t, IsGreatest (m.timesFor p a) t ∧ ∀ n, current a = some n → n.1 < t

/-- A time that is declared for an attribute of `p` and the time it was read are not
both negative. -/
def Dated (m : Declared) (current : Attributes) (p : Path) : Prop :=
  ∀ a, ∀ t ∈ m.timesFor p a, ∀ n, current a = some n → 0 ≤ t ∨ 0 ≤ n.1

theorem stale_iff {p : Path} {v : Visit} {current : Attributes} (h : v.Tells d m p)
    (hcur : d.attributes.get? p = some current) (hdated : Dated m current p) (a : AttrName) :
    (v.stale a).isSome = true ↔ Stale m current p a := by
  have htimes := h.times a
  rw [Visit.stale, h.attributes, hcur]
  cases hr : v.declareAttributeTimestamps.bind (· a) with
  | none =>
      rw [hr] at htimes
      refine iff_of_false Bool.false_ne_true fun ⟨t, ht, _⟩ => ?_
      rw [show m.timesFor p a = ∅ from htimes] at ht
      exact ht.1
  | some w =>
      rw [hr] at htimes
      obtain ⟨t, ht, hw⟩ := htimes
      have hstale : Stale m current p a ↔ ∀ n, current a = some n → n.1 < t :=
        ⟨fun ⟨t', ht', hold⟩ => ht.unique ht' ▸ hold, fun hold => ⟨t, ht, hold⟩⟩
      rw [hstale]
      cases hn : current a with
      | none => simp [isStale, hn]
      | some n =>
          have hlt : n.1 < w ↔ n.1 < t := by
            rcases hw with rfl | rfl
            · exact Iff.rfl
            · rw [lt_max_iff, or_iff_left_of_imp]
              intro hneg
              exact hneg.trans_le ((hdated a t ht.1 n hn).resolve_right (not_le.mpr hneg))
          simp [isStale, hn, hlt]

variable {s : SyncSets} {p : Path} {current : Attributes}
  {sanitizeParameterValue : Option Value → JsString → Option Value}
  {newDate : Option Value → JsNumber}

theorem ordinary_of_path {v : Visit} (hplain : star ∉ p) (hname : ∀ f ∈ p.head?, f ∉ ownCases)
    (hv : v.path = p) : Ordinary v := by
  have hhead : p.head? ≠ some star := fun h => hplain (List.mem_of_mem_head? h)
  rw [Ordinary, Visit.rootFragment, hv, if_pos hhead]
  exact hname

/-- What the visit of a parameter asks for. -/
theorem asksOwn_iff {v : Visit} (h : v.Tells d m p) (hm : m.Built d.paths)
    (hcur : d.attributes.get? p = some current) (hdated : Dated m current p) (a : AttrName) :
    AsksOwn v a ↔ (a ≠ .object ∧ Stale m current p a ∧ (a = .value → objectFlag current = .num 0))
      ∨ (a = .object ∧ Stale m current p .value ∧ objectFlag current = .null) := by
  have hobject : ¬ Stale m current p .object := by
    rintro ⟨t, ⟨⟨q, -, hasked⟩, -⟩, -⟩
    obtain ⟨attrs, hattrs, hsome⟩ := Option.bind_eq_some_iff.mp hasked
    rw [(hm.attributeTimestamps q attrs hattrs).2] at hsome
    exact nomatch hsome
  simp only [AsksOwn, stale_iff h hcur hdated, h.attributes, hcur, Option.some.injEq]
  constructor
  · rintro ⟨_, rfl, ⟨hstale, hvalue⟩ | hunknown⟩
    · refine Or.inl ⟨?_, hstale, hvalue⟩
      rintro rfl
      exact hobject hstale
    · exact Or.inr hunknown
  · rintro (⟨-, h⟩ | h)
    · exact ⟨current, rfl, Or.inl h⟩
    · exact ⟨current, rfl, Or.inr h⟩

/-- A parameter is in a set when its own visit asks for it; in the set of those
whose kind is to be found, it may also be for what is declared below it. -/
theorem mem_processDeclarations (hm : m.Built d.paths)
    (hpaths : ∀ q, (d.attributes.get? q).isSome = true → q ∈ d.paths)
    (hlen : ∀ q ∈ d.paths, q.length ≤ 30) (hplain : star ∉ p)
    (hcur : d.attributes.get? p = some current) (hname : ∀ f ∈ p.head?, f ∉ ownCases)
    (hdated : Dated m current p) (a : AttrName) :
    p ∈ (processDeclarations sanitizeParameterValue newDate d m s).2.refreshAttributes a
      ↔ p ∈ s.refreshAttributes a
        ∨ (a ≠ .object ∧ Stale m current p a ∧ (a = .value → objectFlag current = .num 0))
        ∨ (a = .object ∧ (Stale m current p .value ∧ objectFlag current = .null
          ∨ (objectFlag current).truthy = false
            ∧ ∃ v ∈ visits d m, Ordinary v ∧ v.leaf.param = p ∧ v.path ≠ p ∧ v.IsNewer)) := by
  have hp : p ∈ d.paths := hpaths p (by rw [hcur]; rfl)
  have hleaf : (∃ v ∈ visits d m, Ordinary v ∧ AsksLeaf v p)
      ↔ (objectFlag current).truthy = false
        ∧ ∃ v ∈ visits d m, Ordinary v ∧ v.leaf.param = p ∧ v.path ≠ p ∧ v.IsNewer := by
    constructor
    · rintro ⟨v, hv, hord, hparam, hne, hnew, htruthy⟩
      rw [visits_leafOf hlen hv current (hparam ▸ hcur)] at htruthy
      exact ⟨htruthy, v, hv, hord, hparam, hne, hnew⟩
    · rintro ⟨htruthy, v, hv, hord, hparam, hne, hnew⟩
      refine ⟨v, hv, hord, hparam, hne, hnew, ?_⟩
      rwa [visits_leafOf hlen hv current (hparam ▸ hcur)]
  have hown : (∃ v ∈ visits d m, Ordinary v ∧ v.path = p ∧ AsksOwn v a)
      ↔ (a ≠ .object ∧ Stale m current p a ∧ (a = .value → objectFlag current = .num 0))
        ∨ (a = .object ∧ Stale m current p .value ∧ objectFlag current = .null) := by
    by_cases hempty : m.IsEmpty
    · have hnot : ∀ b, ¬ Stale m current p b := by
        rintro b ⟨t, hgreatest, -⟩
        rw [hempty.timesFor] at hgreatest
        exact hgreatest.1
      rw [visits_of_isEmpty hempty]
      refine iff_of_false (fun ⟨_, h, _⟩ => nomatch h) ?_
      rintro (⟨-, h, -⟩ | ⟨-, h, -⟩)
      · exact hnot a h
      · exact hnot .value h
    · obtain ⟨v, htells, honly⟩ := visits_once hplain hp hm hlen hempty
      rw [← asksOwn_iff htells hm hcur hdated]
      have hmem : ∀ v', v' ∈ visits d m ∧ v'.path = p ↔ v' = v := fun v' => by
        have hiff : v' ∈ (visits d m).filter (fun v => v.path = p) ↔ v' ∈ [v] := by rw [honly]
        rwa [List.mem_filter, decide_eq_true_eq, List.mem_singleton] at hiff
      constructor
      · rintro ⟨v', hv', -, hpath, hasks⟩
        exact (hmem v').mp ⟨hv', hpath⟩ ▸ hasks
      · intro hasks
        obtain ⟨hv, hpath⟩ := (hmem v).mpr rfl
        exact ⟨v, hv, ordinary_of_path hplain hname hpath, hpath, hasks⟩
  rw [processDeclarations, mem_foldl_act]
  refine or_congr Iff.rfl ?_
  rw [← hleaf]
  constructor
  · rintro ⟨v, hv, hord, ⟨hpath, hasks⟩ | ⟨hobject, hasks⟩⟩
    · rcases hown.mp ⟨v, hv, hord, hpath, hasks⟩ with h | h
      · exact Or.inl h
      · exact Or.inr ⟨h.1, Or.inl h.2⟩
    · exact Or.inr ⟨hobject, Or.inr ⟨v, hv, hord, hasks⟩⟩
  · rintro (h | ⟨hobject, h | ⟨v, hv, hord, hasks⟩⟩)
    · obtain ⟨v, hv, hord, h⟩ := hown.mpr (Or.inl h)
      exact ⟨v, hv, hord, Or.inl h⟩
    · obtain ⟨v, hv, hord, h⟩ := hown.mpr (Or.inr ⟨hobject, h⟩)
      exact ⟨v, hv, hord, Or.inl h⟩
    · exact ⟨v, hv, hord, Or.inr ⟨hobject, hasks⟩⟩

/-- A parameter is to be set to the value that is declared for it. -/
theorem spv_processDeclarations (hm : m.Built d.paths)
    (hpaths : ∀ q, (d.attributes.get? q).isSome = true → q ∈ d.paths)
    (hlen : ∀ q ∈ d.paths, q.length ≤ 30) (hplain : star ∉ p)
    (hcur : d.attributes.get? p = some current) (hname : ∀ f ∈ p.head?, f ∉ ownCases) :
    (processDeclarations sanitizeParameterValue newDate d m s).2.spv.get? p
      = ((m.attributeValues.get? p).bind fun values => values.present .value).or
        (s.spv.get? p) := by
  have hp : p ∈ d.paths := hpaths p (by rw [hcur]; rfl)
  rw [processDeclarations, foldl_act_spv]
  by_cases hempty : m.IsEmpty
  · rw [visits_of_isEmpty hempty, hempty.attributeValues]
    rfl
  · obtain ⟨v, htells, honly⟩ := visits_once hplain hp hm hlen hempty
    rw [honly, List.foldl_cons, List.foldl_nil,
      if_pos (ordinary_of_path hplain hname htells.path), valueToSet, htells.attributes, hcur,
      htells.values]
    rfl

/-- A parameter of the device is visited once if anything is declared. It is asked
for just what is stale of it, its value only as a parameter without parameters
below it; what it is, also for what is declared below it. It is to be set to what is
declared. -/
theorem processDeclarations_asks (d : DeviceData) (m : Declared) (s : SyncSets) (p : Path)
    (current : Attributes) (sanitizeParameterValue : Option Value → JsString → Option Value)
    (newDate : Option Value → JsNumber) (hm : m.Built d.paths)
    (hpaths : ∀ q, (d.attributes.get? q).isSome = true → q ∈ d.paths)
    (hlen : ∀ q ∈ d.paths, q.length ≤ 30) (hplain : star ∉ p)
    (hcur : d.attributes.get? p = some current) (hname : ∀ f ∈ p.head?, f ∉ ownCases)
    (hdated : Dated m current p) :
    let s' := (processDeclarations sanitizeParameterValue newDate d m s).2
    ((visits d m).filter fun v => v.path = p).length = (if m.IsEmpty then 0 else 1)
      ∧ (∀ a, a ≠ .object → (p ∈ s'.refreshAttributes a ↔ p ∈ s.refreshAttributes a
        ∨ (Stale m current p a ∧ (a = .value → objectFlag current = .num 0))))
      ∧ (p ∈ s'.refreshAttributes .object ↔ p ∈ s.refreshAttributes .object
        ∨ (Stale m current p .value ∧ objectFlag current = .null)
        ∨ ((objectFlag current).truthy = false
          ∧ ∃ v ∈ visits d m, Ordinary v ∧ v.leaf.param = p ∧ v.path ≠ p ∧ v.IsNewer))
      ∧ s'.spv.get? p = ((m.attributeValues.get? p).bind fun values => values.present .value).or
        (s.spv.get? p) := by
  refine ⟨?_, fun a ha => ?_, ?_,
    spv_processDeclarations hm hpaths hlen hplain hcur hname⟩
  · split_ifs with hempty
    · rw [visits_of_isEmpty hempty]
      rfl
    · obtain ⟨v, -, honly⟩ := visits_once hplain (hpaths p (by rw [hcur]; rfl)) hm hlen hempty
      rw [honly]
      rfl
  · rw [mem_processDeclarations hm hpaths hlen hplain hcur hname hdated]
    simp [ha]
  · rw [mem_processDeclarations hm hpaths hlen hplain hcur hname hdated]
    simp

end

end SyncSets

/-! ## A parameter with a declared pattern -/

/-- A value that was read at time 1. -/
def lampAttributes : Attributes
  | .object => some (1, .num 0)
  | .value => some (1, .array [some (.bool true), some (.str (js "xsd:boolean"))])
  | _ => none

def lampDevice : DeviceData :=
  { initDeviceData with
    paths := PathSet.addAll [[js "Lamp"], [star]]
    attributes := InsMap.empty.set [js "Lamp"] lampAttributes }

/-- The values of all parameters at the root are asked for. -/
def lampDeclared : Declared :=
  .run [.path [star] 1, .attributeTimestamps [star] fun a => if a = .value then some 5 else none]

theorem lampDevice_paths : ∀ q ∈ lampDevice.paths, q = [js "Lamp"] ∨ q = [star] := by
  intro q hq
  simpa using PathSet.mem_addAll.mp hq

theorem lampDevice_known (q : Path) (h : (lampDevice.attributes.get? q).isSome = true) :
    q = [js "Lamp"] := by
  by_contra hne
  rw [lampDevice, InsMap.get?_set_of_ne _ hne] at h
  exact nomatch h

def noSync : SyncSets where
  refreshAttributes _ := []
  exist := []
  spv := .empty
  spa := .empty
  gpn := []
  gpnPatterns := .empty
  tags := .empty
  downloadsValues := .empty
  downloadsDownload := .empty
  reboot := .ofRat 0
  factoryReset := .ofRat 0
  virtualParameterDeclarations := []

/-- Its value is asked for, as 5 is later than 1. -/
theorem processDeclarations_asks_lamp :
    [js "Lamp"] ∈ (SyncSets.processDeclarations (fun value _ => value) (fun _ => none) lampDevice
      lampDeclared noSync).2.refreshAttributes .value := by
  have hpaths : ∀ q ∈ [[js "Lamp"], [star]], q ∈ lampDevice.paths := fun q hq =>
    PathSet.mem_addAll.mpr hq
  have hbuilt : lampDeclared.Built lampDevice.paths := by
    refine Declared.built_run fun c hc => ?_
    rcases List.mem_pair.mp hc with rfl | rfl
    · exact hpaths _ (by simp)
    · exact ⟨hpaths _ (by simp), rfl⟩
  have hdated : SyncSets.Dated lampDeclared lampAttributes [js "Lamp"] := by
    intro a t _ n hn
    cases a with
    | object => exact Or.inr (Option.some.inj hn ▸ zero_le_one)
    | value => exact Or.inr (Option.some.inj hn ▸ zero_le_one)
    | _ => exact nomatch hn
  obtain ⟨-, hasked, -⟩ := SyncSets.processDeclarations_asks lampDevice lampDeclared noSync
    [js "Lamp"] lampAttributes (fun value _ => value) (fun _ => none) hbuilt
    (fun q hq => lampDevice_known q hq ▸ hpaths _ (by simp))
    (fun q hq => by rcases lampDevice_paths q hq with rfl | rfl <;> decide)
    (by decide) (InsMap.get?_set_self _ _ _) (by decide) hdated
  refine (hasked .value (by decide)).mpr (Or.inr ⟨⟨5, ⟨?_, ?_⟩, ?_⟩, fun _ => rfl⟩)
  · exact ⟨[star], List.Forall₂.cons (Or.inr rfl) .nil, rfl⟩
  · rintro t ⟨q, -, ht⟩
    obtain ⟨attrs, hattrs, ht⟩ := Option.bind_eq_some_iff.mp ht
    have hq : q = [star] := by
      by_contra hne
      exact nomatch (InsMap.get?_set_of_ne _ hne _).symm.trans hattrs
    subst hq
    obtain rfl := Option.some.inj hattrs
    exact (Option.some.inj ht).ge
  · rintro n hn
    obtain rfl := Option.some.inj hn
    norm_num

/-- Without declarations no parameter is visited. -/
theorem undeclared_not_visited :
    ¬ ∀ (d : DeviceData) (m : Declared) (p : Path) (current : Attributes), m.Built d.paths →
      (∀ q, (d.attributes.get? q).isSome = true → q ∈ d.paths) →
      (∀ q ∈ d.paths, q.length ≤ 30) → star ∉ p → d.attributes.get? p = some current →
      (∀ f ∈ p.head?, f ∉ SyncSets.ownCases) →
        ((visits d m).filter fun v => v.path = p).length = 1 := by
  intro h
  have hone := h lampDevice {} [js "Lamp"] _ (Declared.built_empty _)
    (fun q hq => lampDevice_known q hq ▸ PathSet.mem_addAll.mpr (by simp))
    (fun q hq => by rcases lampDevice_paths q hq with rfl | rfl <;> decide)
    (by decide) (InsMap.get?_set_self _ _ _) (by decide)
  rw [visits_of_isEmpty ⟨rfl, rfl, rfl⟩] at hone
  exact nomatch hone

end GenieAcs
