import GenieAcs.DeviceTracking

/-!
# Visits of declared paths

Declarations ask for paths and for attributes, each with a timestamp, and their
paths may have wildcards. `processDeclarations` goes down the fragments of the
paths that are known, and a call of its inner function stands at one path: its
list holds the paths that cover this path or what may be below it, and what is
declared for any of them is merged. A path with attributes is visited just once,
from its parent, with all that cover it.
-/

namespace GenieAcs

open DeviceData (Covers)

/-! ## Declarations -/

abbrev AttributeValues := AttrName → Option AttrValue

/-- What `runDeclarations` gathers from the declarations. -/
structure Declared where
  timestamps : InsMap Path Timestamp := .empty
  attributeTimestamps : InsMap Path AttributeTimestamps := .empty
  attributeValues : InsMap Path AttributeValues := .empty

namespace Declared

/-- Nothing is declared. -/
def IsEmpty (m : Declared) : Prop :=
  m.timestamps.entries = [] ∧ m.attributeTimestamps.entries = [] ∧ m.attributeValues.entries = []

instance (m : Declared) : Decidable m.IsEmpty := inferInstanceAs (Decidable (_ ∧ _))

/-- `cur[k] = Math.max(v, cur[k] || 0)` for what `attrs` has. -/
def mergeTimestamps (cur attrs : AttributeTimestamps) : AttributeTimestamps := fun a =>
  match attrs a with
  | some v => some (max v ((cur a).getD 0))
  | none => cur a

variable (m : Declared)

/-- `pathGet || 1`, unless the path is declared with a later time. -/
def declarePath (p : Path) (pathGet : Timestamp) : Declared :=
  { m with
    timestamps := m.timestamps.set p
      (max (if pathGet = 0 then 1 else pathGet) ((m.timestamps.get? p).getD 0)) }

def mergeAttributeTimestamps (p : Path) (attrs : AttributeTimestamps) : Declared :=
  { m with
    attributeTimestamps := m.attributeTimestamps.set p
      (match m.attributeTimestamps.get? p with
        | none => attrs
        | some cur => mergeTimestamps cur attrs) }

def mergeAttributeValues (p : Path) (attrs : AttributeValues) (defer : Bool) : Declared :=
  match m.attributeValues.get? p with
  | none =>
      if defer then m else { m with attributeValues := m.attributeValues.set p attrs }
  | some cur =>
      { m with attributeValues := m.attributeValues.set p fun a => (attrs a).or (cur a) }

end Declared

/-- A call of one of the functions that gather what is declared. -/
inductive Declaring where
  | path (p : Path) (pathGet : Timestamp)
  | attributeTimestamps (p : Path) (attrs : AttributeTimestamps)
  | attributeValues (p : Path) (attrs : AttributeValues) (defer : Bool)

namespace Declared

def step (m : Declared) : Declaring → Declared
  | .path p pathGet => m.declarePath p pathGet
  | .attributeTimestamps p attrs => m.mergeAttributeTimestamps p attrs
  | .attributeValues p attrs defer => m.mergeAttributeValues p attrs defer

def run (calls : List Declaring) : Declared := calls.foldl step {}

/-- The maps as `runDeclarations` builds them: the paths are known, values are
set for paths without wildcards, and no time is asked for the attribute that says
whether a parameter is an object. -/
structure Built (paths : PathSet) (m : Declared) : Prop where
  timestamps : ∀ p t, m.timestamps.get? p = some t → p ∈ paths
  attributeTimestamps : ∀ p attrs, m.attributeTimestamps.get? p = some attrs →
    p ∈ paths ∧ attrs .object = none
  attributeValues : ∀ p attrs, m.attributeValues.get? p = some attrs → p ∈ paths ∧ star ∉ p

/-- What a call must meet. -/
def Declares (paths : PathSet) : Declaring → Prop
  | .path p _ => p ∈ paths
  | .attributeTimestamps p attrs => p ∈ paths ∧ attrs .object = none
  | .attributeValues p _ _ => p ∈ paths ∧ star ∉ p

theorem Built.step {paths : PathSet} {m : Declared} {c : Declaring} (h : Built paths m)
    (hc : Declares paths c) : Built paths (m.step c) := by
  cases c with
  | path p pathGet =>
      refine ⟨fun q t hq => ?_, h.attributeTimestamps, h.attributeValues⟩
      by_cases heq : q = p
      · exact heq ▸ hc
      · exact h.timestamps q t ((InsMap.get?_set_of_ne _ heq _).symm.trans hq)
  | attributeTimestamps p attrs =>
      refine ⟨h.timestamps, fun q attrs' hq => ?_, h.attributeValues⟩
      simp only [Declared.step, mergeAttributeTimestamps, InsMap.get?_set] at hq
      split_ifs at hq with heq
      · subst heq
        cases hcur : m.attributeTimestamps.get? q with
        | none =>
            rw [hcur] at hq
            cases hq
            exact hc
        | some cur =>
            rw [hcur] at hq
            cases hq
            refine ⟨hc.1, ?_⟩
            simp only [mergeTimestamps, hc.2]
            exact (h.attributeTimestamps q cur hcur).2
      · exact h.attributeTimestamps q attrs' hq
  | attributeValues p attrs defer =>
      have hset : ∀ attrs', Built paths
          { m with attributeValues := m.attributeValues.set p attrs' } := by
        refine fun attrs' => ⟨h.timestamps, h.attributeTimestamps, fun q attrs'' hq => ?_⟩
        rw [InsMap.get?_set] at hq
        split_ifs at hq with heq
        · exact heq ▸ hc
        · exact h.attributeValues q attrs'' hq
      simp only [Declared.step, mergeAttributeValues]
      split
      · split_ifs
        · exact h
        · exact hset _
      · exact hset _

theorem built_empty (paths : PathSet) : Built paths {} :=
  ⟨(fun _ _ h => nomatch h), (fun _ _ h => nomatch h), (fun _ _ h => nomatch h)⟩

theorem built_run {paths : PathSet} {calls : List Declaring} (h : ∀ c ∈ calls, Declares paths c) :
    Built paths (run calls) := by
  suffices hgo : ∀ m, Built paths m → Built paths (calls.foldl step m) from
    hgo {} (built_empty paths)
  induction calls with
  | nil => exact fun m hm => hm
  | cons c calls ih =>
      intro m hm
      exact ih (fun c' hc' => h c' (List.mem_cons_of_mem _ hc')) _
        (hm.step (h c List.mem_cons_self))

end Declared

/-! ## Going down the paths -/

/-- The last parameter with attributes on the way, whether it is an object, and
the time up to which what is below it is known. -/
structure LeafParam where
  param : Path
  isObject : Option AttrValue
  timestamp : Timestamp

/-- What is known and declared for the paths that a visit is about. -/
structure Gathered where
  currentTimestamp : Timestamp := 0
  declareTimestamp : Timestamp := 0
  declareAttributeTimestamps : Option AttributeTimestamps := none
  declareAttributeValues : Option AttributeValues := none

/-- A call of the inner function. -/
structure Visit extends Gathered where
  path : Path
  attributes : Option Attributes
  leaf : LeafParam

def LeafParam.below (leaf : LeafParam) (path : Path) (attributes : Option Attributes)
    (currentTimestamp : Timestamp) : LeafParam :=
  match attributes with
  | some current =>
      { param := path
        isObject := (current .object).map Prod.snd
        timestamp := match current .object with
          | some (stamp, v) => if v = .num 0 then max leaf.timestamp stamp else leaf.timestamp
          | none => leaf.timestamp }
  | none => { leaf with timestamp := max leaf.timestamp currentTimestamp }

/-- `child.push(path)`; the first path of a child has one fragment more than the
path that is visited. -/
def addChild (n : Nat) (children : InsMap JsString (List Path)) (path : Path) :
    InsMap JsString (List Path) :=
  let fragment := path.getD n []
  match children.get? fragment with
  | some child => children.set fragment (child ++ [path])
  | none =>
      children.set fragment (if n + 1 < path.length then [path.take (n + 1), path] else [path])

def childrenOf (n : Nat) (paths : List Path) : InsMap JsString (List Path) :=
  (paths.filter fun path => n < path.length).foldl (addChild n) .empty

/-- The expression that avoids duplicate visits. -/
def descends (current leafParam : Path) (child : List Path) : Bool :=
  Mask.sar ((current.wildcard ^^^ (child.headD []).wildcard) &&& (Mask.bit current.length - 1))
    leafParam.length = 0

section

variable (d : DeviceData) (m : Declared)

def gather (plain : Bool) (g : Gathered) (path : Path) : Gathered where
  currentTimestamp := max g.currentTimestamp ((d.timestamps.get? path).getD 0)
  declareTimestamp := max g.declareTimestamp ((m.timestamps.get? path).getD 0)
  declareAttributeTimestamps :=
    if plain then
      match m.attributeTimestamps.get? path, g.declareAttributeTimestamps with
      | some attrs, some cur => some (Declared.mergeTimestamps cur attrs)
      | some attrs, none => some attrs
      | none, cur => cur
    else g.declareAttributeTimestamps
  declareAttributeValues :=
    if plain then (m.attributeValues.get? path).or g.declareAttributeValues
    else g.declareAttributeValues

/-- A call with the list `paths`, which begins with `current`. -/
def visit (leaf : LeafParam) (current : Path) (paths : List Path) : Visit :=
  let plain : Bool := current.wildcard = 0
  let g := (paths.filter fun path => ¬ current.length < path.length).foldl (gather d m plain) {}
  let attributes := if plain then d.attributes.get? current else none
  { g with
    path := current
    attributes
    leaf := leaf.below current attributes g.currentTimestamp }

/-- The inner function: the visit, then those of the children. -/
def func : Nat → LeafParam → List Path → List Visit
  | fuel + 1, leaf, current :: rest =>
      let v := visit d m leaf current (current :: rest)
      let children := childrenOf current.length (current :: rest)
      v :: children.entries.flatMap fun (fragment, child) =>
        if descends current v.leaf.param child then
          func fuel v.leaf
            (if fragment ≠ star then child ++ (children.get? star).getD [] else child)
        else []
  | _, _, _ => []

/-- The order of the paths: by wildcards, then by length. -/
def comparePatterns (a b : Path) : Int :=
  if a.wildcard = b.wildcard then a.length - b.length else a.wildcard.toInt - b.wildcard.toInt

def Precedes (a b : Path) : Prop := comparePatterns a b ≤ 0

instance : DecidableRel Precedes := fun a b => inferInstanceAs (Decidable (comparePatterns a b ≤ 0))

/-- The known paths, with the root among them. -/
def sortedPaths : List Path := ((d.paths.add []).find [] false true 99).insertionSort Precedes

/-- All visits; the paths that are found have 99 fragments at most. -/
def visits : List Visit :=
  if m.IsEmpty then [] else func d m 100 ⟨[], some (.num 1), 0⟩ (sortedPaths d)

end

/-! ## The children of a path -/

/-- The paths of a child, with the path that the child stands at in front. -/
def complete (n : Nat) : List Path → List Path
  | [] => []
  | q :: child => if n + 1 < q.length then q.take (n + 1) :: q :: child else q :: child

theorem complete_append {n : Nat} {child : List Path} (h : child ≠ []) (q : Path) :
    complete n child ++ [q] = complete n (child ++ [q]) := by
  cases child with
  | nil => exact absurd rfl h
  | cons e child =>
      rw [List.cons_append, complete, complete]
      split <;> rfl

theorem get?_foldl_addChild (n : Nat) (f : JsString) (paths : List Path) :
    (paths.foldl (addChild n) .empty).get? f
      = if (paths.filter fun q => q.getD n [] = f) = [] then none
        else some (complete n (paths.filter fun q => q.getD n [] = f)) := by
  induction paths using List.reverseRecOn with
  | nil => rfl
  | append_singleton paths q ih =>
      rw [List.foldl_append, List.foldl_cons, List.foldl_nil, List.filter_append, addChild]
      by_cases hq : q.getD n [] = f
      · rw [List.filter_cons_of_pos (by simpa using hq), List.filter_nil, hq, ih]
        by_cases hnil : (paths.filter fun q => q.getD n [] = f) = []
        · rw [if_pos hnil, hnil, List.nil_append, if_neg (List.cons_ne_nil q []), complete]
          exact InsMap.get?_set_self _ f _
        · rw [if_neg hnil, if_neg fun h => hnil (List.append_eq_nil_iff.mp h).1,
            ← complete_append hnil]
          exact InsMap.get?_set_self _ f _
      · rw [List.filter_cons_of_neg (by simpa using hq), List.filter_nil, List.append_nil, ← ih]
        split <;> rw [InsMap.get?_set_of_ne _ (Ne.symm hq)]

/-- The paths of the list that go on with the fragment `f`. -/
def withFragment (n : Nat) (f : JsString) (paths : List Path) : List Path :=
  paths.filter fun q => q[n]? = some f

theorem get?_childrenOf (n : Nat) (paths : List Path) (f : JsString) :
    (childrenOf n paths).get? f
      = if withFragment n f paths = [] then none
        else some (complete n (withFragment n f paths)) := by
  have hsame : (paths.filter fun path => n < path.length).filter (fun q => q.getD n [] = f)
      = withFragment n f paths := by
    rw [List.filter_filter, withFragment]
    refine List.filter_congr fun q _ => ?_
    by_cases hn : n < q.length
    · simp [hn]
    · simp [hn]
  rw [childrenOf, get?_foldl_addChild, hsame]

/-- The list of the call for a child. -/
def childPaths (n : Nat) (paths : List Path) (f : JsString) : List Path :=
  if f ≠ star then
    complete n (withFragment n f paths) ++ complete n (withFragment n star paths)
  else complete n (withFragment n f paths)

/-- What a call makes of its list. -/
theorem mem_entries_childrenOf {n : Nat} {paths : List Path} {e : JsString × List Path} :
    e ∈ (childrenOf n paths).entries ↔ withFragment n e.1 paths ≠ []
      ∧ e.2 = complete n (withFragment n e.1 paths) := by
  rw [← InsMap.get?_eq_some, get?_childrenOf]
  split_ifs with h
  · exact iff_of_false (fun h => nomatch h) (fun h' => h'.1 h)
  · rw [Option.some.injEq, eq_comm]
    exact ⟨fun heq => ⟨h, heq⟩, fun h => h.2⟩

theorem childPaths_eq {n : Nat} {paths : List Path} {f : JsString} {child : List Path}
    (h : child = complete n (withFragment n f paths)) :
    (if f ≠ star then child ++ ((childrenOf n paths).get? star).getD [] else child)
      = childPaths n paths f := by
  subst h
  rw [childPaths, get?_childrenOf]
  by_cases hstar : withFragment n star paths = []
  · rw [if_pos hstar, hstar]
    rfl
  · rw [if_neg hstar]
    rfl

theorem mem_complete {n : Nat} {child : List Path} {q : Path} (h : q ∈ complete n child) :
    ∃ q' ∈ child, q = q' ∨ q = q'.take (n + 1) := by
  cases child with
  | nil => exact nomatch h
  | cons e child =>
      rw [complete] at h
      split at h
      · rcases List.mem_cons.mp h with rfl | h
        · exact ⟨e, List.mem_cons_self, Or.inr rfl⟩
        · exact ⟨q, h, Or.inl rfl⟩
      · exact ⟨q, h, Or.inl rfl⟩

theorem subset_complete {n : Nat} {child : List Path} : child ⊆ complete n child := by
  cases child with
  | nil => exact List.Subset.refl _
  | cons e child =>
      rw [complete]
      split
      · exact List.subset_cons_self _ _
      · exact List.Subset.refl _

theorem mem_withFragment {n : Nat} {f : JsString} {paths : List Path} {q : Path} :
    q ∈ withFragment n f paths ↔ q ∈ paths ∧ q[n]? = some f := by
  rw [withFragment, List.mem_filter, decide_eq_true_eq]

/-- A path of a child goes on with its fragment or with a wildcard; it is in the
list, or it is the beginning of a path in the list. -/
theorem mem_childPaths {n : Nat} {paths : List Path} {f : JsString} {q : Path}
    (h : q ∈ childPaths n paths f) :
    (q[n]? = some f ∨ q[n]? = some star) ∧ ∃ q' ∈ paths, q = q' ∨ q = q'.take (n + 1) := by
  have hof : ∀ g, q ∈ complete n (withFragment n g paths) →
      q[n]? = some g ∧ ∃ q' ∈ paths, q = q' ∨ q = q'.take (n + 1) := by
    intro g hg
    obtain ⟨q', hq', heq⟩ := mem_complete hg
    obtain ⟨hmem, hat⟩ := mem_withFragment.mp hq'
    refine ⟨?_, q', hmem, heq⟩
    rcases heq with rfl | rfl
    · exact hat
    · rw [List.getElem?_take_of_lt (Nat.lt_succ_self n), hat]
  rw [childPaths] at h
  split_ifs at h with hstar
  · rcases List.mem_append.mp h with h | h
    · exact ⟨Or.inl (hof f h).1, (hof f h).2⟩
    · exact ⟨Or.inr (hof star h).1, (hof star h).2⟩
  · exact ⟨Or.inl (hof f h).1, (hof f h).2⟩

theorem head?_complete {n : Nat} {paths child : List Path} {f : JsString} {q : Path}
    (h : withFragment n f paths = q :: child) :
    (complete n (withFragment n f paths)).head? = some (q.take (n + 1)) := by
  have hlen : n < q.length := by
    have hq : q ∈ withFragment n f paths := h ▸ List.mem_cons_self
    exact (List.getElem?_eq_some_iff.mp (mem_withFragment.mp hq).2).1
  rw [h, complete]
  split_ifs with hlong
  · rfl
  · rw [List.head?_cons, List.take_of_length_le (by omega)]

/-- The call for a child stands one fragment further. -/
theorem head?_childPaths {n : Nat} {paths child : List Path} {f : JsString} {q : Path}
    (h : withFragment n f paths = q :: child) :
    (childPaths n paths f).head? = some (q.take (n + 1)) := by
  rw [childPaths]
  split_ifs
  · rw [List.head?_append, head?_complete h, Option.some_or]
  · exact head?_complete h

section

variable {d : DeviceData} {m : Declared}

/-! ## Where the visits are -/

/-- The calls that a call makes. -/
theorem func_succ (fuel : Nat) (leaf : LeafParam) (current : Path) (rest : List Path) :
    func d m (fuel + 1) leaf (current :: rest)
      = visit d m leaf current (current :: rest)
        :: (childrenOf current.length (current :: rest)).entries.flatMap fun e =>
          if descends current (visit d m leaf current (current :: rest)).leaf.param e.2 then
            func d m fuel (visit d m leaf current (current :: rest)).leaf
              (childPaths current.length (current :: rest) e.1)
          else [] := by
  rw [func]
  refine congrArg _ (List.flatMap_congr fun e he => ?_)
  dsimp only
  rw [childPaths_eq (mem_entries_childrenOf.mp he).2]

/-- A visit is at the beginning of a path in the list, not above the first. -/
theorem mem_func {fuel : Nat} {leaf : LeafParam} {paths : List Path} {v : Visit}
    (h : v ∈ func d m fuel leaf paths) :
    (∃ q ∈ paths, v.path <+: q) ∧ ∀ current, paths.head? = some current →
      current.length ≤ v.path.length := by
  induction fuel generalizing leaf paths with
  | zero => exact nomatch h
  | succ fuel ih =>
      cases paths with
      | nil => exact nomatch h
      | cons current rest =>
          rw [func_succ] at h
          rcases List.mem_cons.mp h with rfl | h
          · exact ⟨⟨current, List.mem_cons_self, List.prefix_refl _⟩, fun c hc => by
              rw [← Option.some.inj hc]
              exact Nat.le_refl _⟩
          · obtain ⟨e, he, hv⟩ := List.mem_flatMap.mp h
            split at hv
            · obtain ⟨⟨q, hq, hprefix⟩, hhead⟩ := ih hv
              obtain ⟨-, q', hq', heq⟩ := mem_childPaths hq
              have hle : q <+: q' := by
                rcases heq with rfl | rfl
                · exact List.prefix_refl _
                · exact List.take_prefix _ _
              refine ⟨⟨q', hq', hprefix.trans hle⟩, fun c hc => ?_⟩
              obtain rfl := Option.some.inj hc
              obtain ⟨first, child, hfirst⟩ :=
                List.exists_cons_of_ne_nil (mem_entries_childrenOf.mp he).1
              have hlong := hhead _ (head?_childPaths hfirst)
              have hmem : first ∈ withFragment current.length e.1 (current :: rest) :=
                hfirst ▸ List.mem_cons_self
              have hlt := (List.getElem?_eq_some_iff.mp (mem_withFragment.mp hmem).2).1
              rw [List.length_take] at hlong
              omega
            · exact nomatch hv

/-- The visits of a child go on with its fragment, or with a wildcard. -/
theorem mem_func_childPaths {fuel n : Nat} {leaf : LeafParam} {paths : List Path} {f : JsString}
    {v : Visit} (hf : withFragment n f paths ≠ [])
    (h : v ∈ func d m fuel leaf (childPaths n paths f)) :
    n < v.path.length ∧ (v.path[n]? = some f ∨ v.path[n]? = some star) := by
  obtain ⟨⟨q, hq, hprefix⟩, hhead⟩ := mem_func h
  obtain ⟨first, child, hfirst⟩ := List.exists_cons_of_ne_nil hf
  have hmem : first ∈ withFragment n f paths := hfirst ▸ List.mem_cons_self
  have hlt := (List.getElem?_eq_some_iff.mp (mem_withFragment.mp hmem).2).1
  have hlong := hhead _ (head?_childPaths hfirst)
  rw [List.length_take] at hlong
  have hn : n < v.path.length := by omega
  refine ⟨hn, ?_⟩
  have hsame : v.path[n]? = q[n]? := by
    obtain ⟨t, rfl⟩ := hprefix
    exact (List.getElem?_append_left hn).symm
  rw [hsame]
  exact (mem_childPaths hq).1

/-! ## The way to a path -/

/-- The list of a call that stands at the first `n` fragments of `p`, which has no
wildcards: it has all known paths that cover them, and those without wildcards
come first. -/
structure Stage (known : PathSet) (p : Path) (n : Nat) (paths : List Path) : Prop where
  head : paths.head? = some (p.take n)
  covers : ∀ q ∈ paths, n ≤ q.length ∧ ∀ i < n, q[i]? = p[i]? ∨ q[i]? = some star
  complete : ∀ q ∈ known, n ≤ q.length → (∀ i < n, q[i]? = p[i]? ∨ q[i]? = some star) → q ∈ paths
  order : paths.Pairwise fun q q' => star ∈ q → star ∈ q'

theorem Stage.next {known : PathSet} {p : Path} {n : Nat} {paths : List Path} {f : JsString}
    (h : Stage known p n paths) (hp : p ∈ known) (hplain : star ∉ p) (hf : p[n]? = some f) :
    withFragment n f paths ≠ [] ∧ Stage known p (n + 1) (childPaths n paths f) := by
  have hn : n < p.length := (List.getElem?_eq_some_iff.mp hf).1
  have hstar : f ≠ star := by
    rintro rfl
    exact hplain (List.mem_of_getElem? hf)
  have hmem : p ∈ withFragment n f paths :=
    mem_withFragment.mpr ⟨h.complete p hp hn.le fun _ _ => Or.inl rfl, hf⟩
  obtain ⟨first, child, hfirst⟩ := List.exists_cons_of_ne_nil (List.ne_nil_of_mem hmem)
  have horder : (withFragment n f paths).Pairwise fun q q' => star ∈ q → star ∈ q' :=
    h.order.filter _
  -- the first path of the child has no wildcards, as `p` is in the child
  have hfirst' : first ∈ withFragment n f paths := hfirst ▸ List.mem_cons_self
  obtain ⟨hfmem, hfat⟩ := mem_withFragment.mp hfirst'
  have hfplain : star ∉ first := by
    intro hs
    rw [hfirst] at hmem horder
    rcases List.mem_cons.mp hmem with rfl | hmem
    · exact hplain hs
    · exact hplain ((List.pairwise_cons.mp horder).1 p hmem hs)
  have htake : first.take (n + 1) = p.take (n + 1) := by
    refine List.ext_getElem? fun i => ?_
    rw [List.getElem?_take, List.getElem?_take]
    split_ifs with hi
    · rcases Nat.lt_succ_iff_lt_or_eq.mp hi with hlt | rfl
      · rcases (h.covers first hfmem).2 i hlt with hsame | hs
        · exact hsame
        · exact absurd (List.mem_of_getElem? hs) hfplain
      · rw [hfat, hf]
    · rfl
  refine ⟨List.ne_nil_of_mem hmem, ?_, ?_, ?_, ?_⟩
  · rw [head?_childPaths hfirst, htake]
  · intro q hq
    obtain ⟨hat, q', hq', heq⟩ := mem_childPaths hq
    have hlt : n < q.length := by
      rcases hat with hat | hat <;> exact (List.getElem?_eq_some_iff.mp hat).1
    refine ⟨hlt, fun i hi => ?_⟩
    rcases Nat.lt_succ_iff_lt_or_eq.mp hi with hlt | rfl
    · have hcov := (h.covers q' hq').2 i hlt
      rcases heq with rfl | rfl
      · exact hcov
      · rwa [List.getElem?_take_of_lt hi]
    · rwa [hf]
  · intro q hq hlen hcov
    have hin := h.complete q hq (by omega) fun i hi => hcov i (by omega)
    rw [childPaths, if_pos hstar]
    rcases hcov n (Nat.lt_succ_self n) with hat | hat
    · exact List.mem_append_left _ (subset_complete (mem_withFragment.mpr ⟨hin, hat.trans hf⟩))
    · exact List.mem_append_right _ (subset_complete (mem_withFragment.mpr ⟨hin, hat⟩))
  · rw [childPaths, if_pos hstar, List.pairwise_append]
    have hbehind : ∀ q ∈ GenieAcs.complete n (withFragment n star paths), star ∈ q := by
      intro q hq
      obtain ⟨q', hq', heq⟩ := mem_complete hq
      have hat := (mem_withFragment.mp hq').2
      rcases heq with rfl | rfl
      · exact List.mem_of_getElem? hat
      · exact List.mem_of_getElem? ((List.getElem?_take_of_lt (Nat.lt_succ_self n)).trans hat)
    refine ⟨?_, ?_, fun q _ q' hq' _ => hbehind q' hq'⟩
    · rw [hfirst, GenieAcs.complete]
      split_ifs
      · exact List.pairwise_cons.mpr
          ⟨fun q _ hs => absurd (List.mem_of_mem_take hs) hfplain, hfirst ▸ horder⟩
      · exact hfirst ▸ horder
    · exact List.pairwise_of_forall_mem_list fun q _ q' hq' _ => hbehind q' hq'

theorem flatMap_single {α β : Type} {l : List α} {e : α} {g : α → List β} (hmem : e ∈ l)
    (hnodup : l.Nodup) (h : ∀ e' ∈ l, e' ≠ e → g e' = []) : l.flatMap g = g e := by
  obtain ⟨l₁, l₂, rfl⟩ := List.append_of_mem hmem
  have hnil : ∀ l' : List α, (∀ e' ∈ l', e' ∈ l₁ ++ e :: l₂ ∧ e' ≠ e) → l'.flatMap g = [] :=
    fun l' hl' => List.flatMap_eq_nil_iff.mpr fun e' he' => h e' (hl' e' he').1 (hl' e' he').2
  rw [List.nodup_middle, List.nodup_cons, List.mem_append, not_or] at hnodup
  rw [List.flatMap_append, List.flatMap_cons, hnil l₁, hnil l₂, List.nil_append, List.append_nil]
  · exact fun e' he' => ⟨List.mem_append_right _ (List.mem_cons_of_mem _ he'),
      fun heq => hnodup.1.2 (heq ▸ he')⟩
  · exact fun e' he' => ⟨List.mem_append_left _ he', fun heq => hnodup.1.1 (heq ▸ he')⟩

theorem descends_of_plain {current leafParam : Path} {child : List Path} (hcur : star ∉ current)
    (hchild : star ∉ child.headD []) : descends current leafParam child = true := by
  rw [descends, Path.wildcard_eq_zero.mpr hcur, Path.wildcard_eq_zero.mpr hchild]
  simp [Mask.sar]

/-- A call on the way to a known path without wildcards leads to one visit of it,
with the known paths that cover it. -/
theorem func_visits {known : PathSet} {p : Path} (hp : p ∈ known) (hplain : star ∉ p)
    {fuel n : Nat} (leaf : LeafParam) {paths : List Path} (h : Stage known p n paths)
    (hn : n ≤ p.length) (hfuel : p.length < n + fuel) :
    ∃ leaf' paths', Stage known p p.length paths'
      ∧ (func d m fuel leaf paths).filter (fun v => v.path = p) = [visit d m leaf' p paths'] := by
  induction fuel generalizing n leaf paths with
  | zero => omega
  | succ fuel ih =>
      cases paths with
      | nil => cases h.head
      | cons current rest =>
          obtain rfl : current = p.take n := Option.some.inj h.head
          have hlen : (p.take n).length = n := List.length_take_of_le hn
          rw [func_succ, hlen]
          rcases hn.eq_or_lt with rfl | hlt
          · -- the visits of the children are further down
            rw [List.take_length] at h ⊢
            refine ⟨leaf, p :: rest, h, ?_⟩
            rw [List.filter_cons_of_pos (by simp [visit]), List.filter_eq_nil_iff.mpr]
            intro v hv
            obtain ⟨e, he, hv⟩ := List.mem_flatMap.mp hv
            split at hv
            · have hlong := (mem_func_childPaths (mem_entries_childrenOf.mp he).1 hv).1
              rw [decide_eq_true_eq]
              rintro heq
              rw [heq] at hlong
              exact lt_irrefl _ hlong
            · cases hv
          · -- only the child with the next fragment leads to `p`
            have hf : p[n]? = some p[n] := List.getElem?_eq_getElem hlt
            obtain ⟨hne, hstage⟩ := h.next hp hplain hf
            have hvisit : (visit d m leaf (p.take n) (p.take n :: rest)).path ≠ p := by
              intro heq
              have hshort := congrArg List.length (show p.take n = p from heq)
              rw [hlen] at hshort
              omega
            rw [List.filter_cons_of_neg (by simpa using hvisit), List.filter_flatMap]
            have hmem : (p[n], complete n (withFragment n p[n] (p.take n :: rest)))
                ∈ (childrenOf n (p.take n :: rest)).entries :=
              mem_entries_childrenOf.mpr ⟨hne, rfl⟩
            rw [flatMap_single hmem (List.Nodup.of_map Prod.fst (InsMap.nodup _))]
            · have hhead : (complete n (withFragment n p[n] (p.take n :: rest))).headD []
                  = p.take (n + 1) := by
                obtain ⟨first, child, hfirst⟩ := List.exists_cons_of_ne_nil hne
                have hsame := (head?_childPaths hfirst).symm.trans hstage.head
                rw [List.headD_eq_head?_getD, head?_complete hfirst, hsame, Option.getD_some]
              rw [if_pos (descends_of_plain (fun hs => hplain (List.mem_of_mem_take hs))
                (hhead ▸ fun hs => hplain (List.mem_of_mem_take hs)))]
              exact ih _ hstage hlt (by omega)
            · intro e he hne'
              rw [List.filter_eq_nil_iff]
              intro v hv
              split at hv
              · obtain ⟨-, hat⟩ := mem_func_childPaths (mem_entries_childrenOf.mp he).1 hv
                rw [decide_eq_true_eq]
                rintro heq
                rw [heq, hf] at hat
                rcases hat with hat | hat
                · refine hne' (Prod.ext (Option.some.inj hat).symm ?_)
                  rw [(mem_entries_childrenOf.mp he).2, ← Option.some.inj hat]
                · exact hplain (List.mem_of_getElem? (hf.trans hat))
              · cases hv

/-! ## The order of the paths -/

theorem precedes_iff {a b : Path} : Precedes a b
    ↔ a.wildcard.toInt < b.wildcard.toInt ∨ a.wildcard = b.wildcard ∧ a.length ≤ b.length := by
  rw [Precedes, comparePatterns]
  split_ifs with h
  · simp only [h, true_and, lt_irrefl, false_or]
    omega
  · have hne : a.wildcard.toInt ≠ b.wildcard.toInt := fun heq => h (BitVec.toInt_inj.mp heq)
    simp only [h, false_and, or_false]
    omega

instance : Std.Total Precedes :=
  ⟨fun a b => by
    rw [precedes_iff, precedes_iff]
    rcases lt_trichotomy a.wildcard.toInt b.wildcard.toInt with h | h | h
    · exact Or.inl (Or.inl h)
    · have heq := BitVec.toInt_inj.mp h
      rcases Nat.le_total a.length b.length with hle | hle
      · exact Or.inl (Or.inr ⟨heq, hle⟩)
      · exact Or.inr (Or.inr ⟨heq.symm, hle⟩)
    · exact Or.inr (Or.inl h)⟩

instance : IsTrans Path Precedes :=
  ⟨fun a b c hab hbc => by
    rw [precedes_iff] at hab hbc ⊢
    rcases hab with hab | ⟨hab, hlen⟩ <;> rcases hbc with hbc | ⟨hbc, hlen'⟩
    · exact Or.inl (hab.trans hbc)
    · exact Or.inl (hbc ▸ hab)
    · exact Or.inl (hab ▸ hbc)
    · exact Or.inr ⟨hab.trans hbc, hlen.trans hlen'⟩⟩

/-- Up to 31 fragments the sign bit is clear. -/
theorem wildcard_nonneg {p : Path} (h : p.length ≤ 31) : 0 ≤ p.wildcard.toInt := by
  have hmsb : p.wildcard.msb = false := by
    rw [BitVec.msb_eq_getLsbD_last, ← Bool.not_eq_true, Path.wildcard, Path.getLsbD_wildcardFrom]
    rintro ⟨j, hj, heq⟩
    have hlt := (List.getElem?_eq_some_iff.mp hj).1
    omega
  rw [BitVec.toInt_eq_msb_cond, hmsb]
  exact Int.natCast_nonneg _

/-- Paths without wildcards come first. -/
theorem plain_of_precedes {a b : Path} (ha : a.length ≤ 31) (h : Precedes a b) (hb : star ∉ b) :
    star ∉ a ∧ a.length ≤ b.length := by
  rw [precedes_iff, Path.wildcard_eq_zero.mpr hb] at h
  have hpos := wildcard_nonneg ha
  rcases h with h | ⟨h, hlen⟩
  · rw [show (0 : Mask).toInt = 0 from rfl] at h
    omega
  · exact ⟨Path.wildcard_eq_zero.mp h, hlen⟩

theorem mem_sortedPaths {q : Path} : q ∈ sortedPaths d ↔ q ∈ d.paths.add [] ∧ q.length ≤ 99 := by
  rw [sortedPaths, List.mem_insertionSort, PathSet.mem_find]
  simp

/-- The first call stands at the root. -/
theorem stage_root (hlen : ∀ q ∈ d.paths, q.length ≤ 30) (p : Path) :
    Stage (d.paths.add []) p 0 (sortedPaths d) := by
  have hshort : ∀ q ∈ sortedPaths d, q.length ≤ 31 := by
    intro q hq
    rcases PathSet.mem_add.mp (mem_sortedPaths.mp hq).1 with rfl | hq
    · exact Nat.zero_le _
    · exact (hlen q hq).trans (by omega)
  have hsorted : (sortedPaths d).Pairwise Precedes := List.pairwise_insertionSort Precedes _
  have hroot : [] ∈ sortedPaths d :=
    mem_sortedPaths.mpr ⟨PathSet.mem_add.mpr (Or.inl rfl), Nat.zero_le _⟩
  refine ⟨?_, fun q _ => ⟨Nat.zero_le _, fun i hi => absurd hi (Nat.not_lt_zero i)⟩, ?_, ?_⟩
  · obtain ⟨first, rest, heq⟩ := List.exists_cons_of_ne_nil (List.ne_nil_of_mem hroot)
    rw [heq, List.head?_cons, List.take_zero]
    rw [heq] at hroot hsorted hshort
    rcases List.mem_cons.mp hroot with rfl | hmem
    · rfl
    · have hle := plain_of_precedes (hshort first List.mem_cons_self)
        ((List.pairwise_cons.mp hsorted).1 [] hmem) List.not_mem_nil
      exact congrArg some (List.eq_nil_of_length_eq_zero (Nat.le_zero.mp hle.2))
  · intro q hq _ _
    refine mem_sortedPaths.mpr ⟨hq, ?_⟩
    rcases PathSet.mem_add.mp hq with rfl | hq
    · exact Nat.zero_le _
    · exact (hlen q hq).trans (by omega)
  · refine hsorted.imp_of_mem fun ha _ h hs => ?_
    by_contra hb
    exact (plain_of_precedes (hshort _ ha) h hb).1 hs

/-! ## What a visit gathers -/

/-- The time that is declared for an attribute of the path `q`. -/
def Declared.asked (m : Declared) (q : Path) (a : AttrName) : Option Timestamp :=
  (m.attributeTimestamps.get? q).bind fun attrs => attrs a

/-- The latest of some times, or 0 when they are negative: a time that is merged is
at least 0. -/
def Latest (S : Set Timestamp) (w : Timestamp) : Prop :=
  ∃ t, IsGreatest S t ∧ (w = t ∨ w = max t 0)

theorem gather_attributeTimestamps (g : Gathered) (q : Path) (a : AttrName) :
    match m.asked q a, g.declareAttributeTimestamps.bind (· a),
        (gather d m true g q).declareAttributeTimestamps.bind (· a) with
      | some v, some w, r => r = some (max v w)
      | some v, none, r => r = some v ∨ r = some (max v 0)
      | none, cur, r => r = cur := by
  cases hq : m.attributeTimestamps.get? q with
  | none => simp [gather, Declared.asked, hq]
  | some attrs =>
      cases hg : g.declareAttributeTimestamps with
      | none => cases ha : attrs a <;> simp [gather, Declared.asked, hq, hg, ha]
      | some cur =>
          cases ha : attrs a with
          | none => simp [gather, Declared.asked, hq, hg, ha, Declared.mergeTimestamps]
          | some v =>
              cases hc : cur a <;>
                simp [gather, Declared.asked, hq, hg, ha, hc, Declared.mergeTimestamps]

/-- What is gathered for an attribute is the latest time declared for it. -/
theorem gathered_attributeTimestamps (own : List Path) (a : AttrName) :
    match (own.foldl (gather d m true) {}).declareAttributeTimestamps.bind (· a) with
      | some w => Latest {v | ∃ q ∈ own, m.asked q a = some v} w
      | none => ∀ q ∈ own, m.asked q a = none := by
  induction own using List.reverseRecOn with
  | nil => exact fun q hq => nomatch hq
  | append_singleton own q ih =>
      rw [List.foldl_append, List.foldl_cons, List.foldl_nil]
      have hstep := gather_attributeTimestamps (d := d) (m := m)
        (own.foldl (gather d m true) {}) q a
      generalize (own.foldl (gather d m true) {}).declareAttributeTimestamps.bind (· a) = r
        at ih hstep
      generalize (gather d m true (own.foldl (gather d m true) {})
        q).declareAttributeTimestamps.bind (· a) = r' at hstep
      have hset : {v | ∃ q' ∈ own ++ [q], m.asked q' a = some v}
          = {v | m.asked q a = some v} ∪ {v | ∃ q' ∈ own, m.asked q' a = some v} := by
        ext v
        simp only [List.mem_append, List.mem_singleton, Set.mem_union, Set.mem_ofPred_eq]
        constructor
        · rintro ⟨q', hq' | rfl, hv⟩
          · exact Or.inr ⟨q', hq', hv⟩
          · exact Or.inl hv
        · rintro (hv | ⟨q', hq', hv⟩)
          · exact ⟨q, Or.inr rfl, hv⟩
          · exact ⟨q', Or.inl hq', hv⟩
      rw [hset]
      cases hq : m.asked q a with
      | none =>
          rw [hq] at hstep
          obtain rfl : r' = r := hstep
          cases r' with
          | none =>
              intro q' hq'
              rcases List.mem_append.mp hq' with hq' | hq'
              · exact ih q' hq'
              · rw [List.mem_singleton.mp hq', hq]
          | some w => simpa using ih
      | some v =>
          rw [hq] at hstep
          have hv : IsGreatest {w | some v = some w} v :=
            ⟨rfl, fun w hw => (Option.some.inj hw).ge⟩
          cases r with
          | some w =>
              obtain ⟨t, ht, hw⟩ := ih
              subst hstep
              refine ⟨max v t, hv.union ht, ?_⟩
              rcases hw with rfl | rfl
              · exact Or.inl rfl
              · exact Or.inr (max_assoc v t 0).symm
          | none =>
              have hgreatest : IsGreatest ({w | some v = some w}
                  ∪ {v | ∃ q' ∈ own, m.asked q' a = some v}) v := by
                refine ⟨Or.inl rfl, ?_⟩
                rintro w (hw | ⟨q', hq', hw⟩)
                · exact hv.2 hw
                · rw [ih q' hq'] at hw
                  exact nomatch hw
              rcases hstep with rfl | rfl
              · exact ⟨v, hgreatest, Or.inl rfl⟩
              · exact ⟨v, hgreatest, Or.inr rfl⟩

/-- Values are gathered from the one path that has them. -/
theorem gathered_attributeValues {p : Path} {own : List Path} (hp : p ∈ own)
    (hown : ∀ q ∈ own, q ≠ p → m.attributeValues.get? q = none) :
    (own.foldl (gather d m true) {}).declareAttributeValues = m.attributeValues.get? p := by
  have hstep : ∀ (g : Gathered) (q : Path), (gather d m true g q).declareAttributeValues
      = (m.attributeValues.get? q).or g.declareAttributeValues := fun _ _ => rfl
  suffices hgo : ∀ g : Gathered,
      (g.declareAttributeValues = none ∨ g.declareAttributeValues = m.attributeValues.get? p) →
        (own.foldl (gather d m true) g).declareAttributeValues
          = if p ∈ own then m.attributeValues.get? p else g.declareAttributeValues by
    rw [hgo {} (Or.inl rfl), if_pos hp]
  clear hp
  induction own with
  | nil => exact fun g _ => rfl
  | cons q own ih =>
      intro g hg
      rw [List.foldl_cons, ih (fun q' hq' => hown q' (List.mem_cons_of_mem _ hq'))]
      · by_cases hmem : p ∈ own
        · rw [if_pos hmem, if_pos (List.mem_cons_of_mem _ hmem)]
        · rw [if_neg hmem, hstep]
          by_cases hq : q = p
          · rw [hq, if_pos List.mem_cons_self]
            cases hv : m.attributeValues.get? p with
            | some v => rfl
            | none => exact (hg.elim id fun h => h.trans hv)
          · rw [hown q List.mem_cons_self hq, Option.none_or, if_neg]
            rintro (_ | ⟨_, h⟩)
            · exact hq rfl
            · exact hmem h
      · rw [hstep]
        by_cases hq : q = p
        · rw [hq]
          cases hv : m.attributeValues.get? p with
          | some v => exact Or.inr rfl
          | none => exact Or.inl (hg.elim id fun h => h.trans hv)
        · rw [hown q List.mem_cons_self hq]
          exact hg

/-! ## The visit of a path -/

theorem covers_iff {q p : Path} : Covers q p
    ↔ q.length = p.length ∧ ∀ i < p.length, q[i]? = p[i]? ∨ q[i]? = some star := by
  refine ⟨fun h => ⟨h.length_eq, fun i _ => h.getElem? i⟩, fun ⟨hlen, h⟩ => ?_⟩
  refine List.forall₂_iff_get.mpr ⟨hlen, fun i hi hi' => ?_⟩
  rcases h i hi' with h | h
  · rw [List.getElem?_eq_getElem hi, List.getElem?_eq_getElem hi'] at h
    exact Or.inl (Option.some.inj h)
  · rw [List.getElem?_eq_getElem hi] at h
    exact Or.inr (Option.some.inj h)

theorem DeviceData.Covers.eq_of_plain {q p : Path} (h : Covers q p) (hq : star ∉ q) : q = p :=
  List.ext_getElem? fun i => (h.getElem? i).resolve_right fun hs => hq (List.mem_of_getElem? hs)

/-- The times that are declared for an attribute over all paths that cover `p`. -/
def Declared.timesFor (m : Declared) (p : Path) (a : AttrName) : Set Timestamp :=
  {t | ∃ q, Covers q p ∧ m.asked q a = some t}

/-- What the visit of `p` has to tell. -/
structure Visit.Tells (d : DeviceData) (m : Declared) (p : Path) (v : Visit) : Prop where
  path : v.path = p
  attributes : v.attributes = d.attributes.get? p
  leaf : ∀ current, d.attributes.get? p = some current → v.leaf.param = p
  times : ∀ a, match v.declareAttributeTimestamps.bind (· a) with
    | some w => Latest (m.timesFor p a) w
    | none => m.timesFor p a = ∅
  values : v.declareAttributeValues = m.attributeValues.get? p

theorem visit_tells {p : Path} (hplain : star ∉ p) (hp : p ∈ d.paths) (hm : m.Built d.paths)
    {paths : List Path} (h : Stage (d.paths.add []) p p.length paths) (leaf : LeafParam) :
    (visit d m leaf p paths).Tells d m p := by
  have hzero : decide (p.wildcard = 0) = true := decide_eq_true (Path.wildcard_eq_zero.mpr hplain)
  have hknown : ∀ {q}, q ∈ d.paths → q ∈ d.paths.add [] := fun hq =>
    PathSet.mem_add.mpr (Or.inr hq)
  have hown : ∀ q, q ∈ paths.filter (fun q => ¬ p.length < q.length) ↔ q ∈ paths ∧ Covers q p := by
    intro q
    rw [List.mem_filter, decide_eq_true_eq, not_lt]
    refine and_congr_right fun hq => ?_
    obtain ⟨hle, hcov⟩ := h.covers q hq
    exact ⟨fun hge => covers_iff.mpr ⟨le_antisymm hge hle, hcov⟩, fun hc => hc.length_eq.le⟩
  have hin : ∀ q ∈ d.paths, Covers q p → q ∈ paths.filter (fun q => ¬ p.length < q.length) := by
    intro q hq hcov
    obtain ⟨hlen, hat⟩ := covers_iff.mp hcov
    exact (hown q).mpr ⟨h.complete q (hknown hq) hlen.ge hat, hcov⟩
  have hset : ∀ a, {t | ∃ q ∈ paths.filter (fun q => ¬ p.length < q.length), m.asked q a = some t}
      = m.timesFor p a := by
    intro a
    ext t
    constructor
    · rintro ⟨q, hq, ht⟩
      exact ⟨q, ((hown q).mp hq).2, ht⟩
    · rintro ⟨q, hcov, ht⟩
      obtain ⟨attrs, hattrs, -⟩ := Option.bind_eq_some_iff.mp ht
      exact ⟨q, hin q (hm.attributeTimestamps q attrs hattrs).1 hcov, ht⟩
  have hcoverself : Covers p p := covers_iff.mpr ⟨rfl, fun _ _ => Or.inl rfl⟩
  refine ⟨rfl, ?_, fun current hcur => ?_, fun a => ?_, ?_⟩
  · simp only [visit, hzero, if_true]
  · simp only [visit, hzero, if_true, hcur, LeafParam.below]
  · have hgathered := gathered_attributeTimestamps (d := d) (m := m)
      (paths.filter fun q => ¬ p.length < q.length) a
    rw [hset a] at hgathered
    simp only [visit, hzero]
    split at hgathered
    · exact hgathered
    · rename_i hnone
      refine Set.eq_empty_of_forall_notMem fun t ht => ?_
      obtain ⟨q, hq, ht⟩ := (hset a).symm ▸ ht
      rw [hgathered q hq] at ht
      cases ht
  · simp only [visit, hzero]
    refine gathered_attributeValues (hin p hp hcoverself) fun q hq hne => ?_
    by_contra hsome
    obtain ⟨attrs, hattrs⟩ := Option.ne_none_iff_exists'.mp hsome
    exact hne (((hown q).mp hq).2.eq_of_plain (hm.attributeValues q attrs hattrs).2)

/-- A known path without wildcards is visited once, if anything is declared. -/
theorem visits_once {p : Path} (hplain : star ∉ p) (hp : p ∈ d.paths) (hm : m.Built d.paths)
    (hlen : ∀ q ∈ d.paths, q.length ≤ 30) (hsome : ¬ m.IsEmpty) :
    ∃ v, v.Tells d m p ∧ (visits d m).filter (fun v => v.path = p) = [v] := by
  have hfuel : p.length < 0 + 100 := by
    have hle := hlen p hp
    omega
  obtain ⟨leaf', paths', hstage, hvisits⟩ :=
    func_visits (d := d) (m := m) (PathSet.mem_add.mpr (Or.inr hp)) hplain
      ⟨[], some (.num 1), 0⟩ (stage_root hlen p) (Nat.zero_le _) hfuel
  rw [visits, if_neg hsome]
  exact ⟨_, visit_tells hplain hp hm hstage leaf', hvisits⟩

/-- With nothing declared there is no visit. -/
theorem visits_of_isEmpty (h : m.IsEmpty) : visits d m = [] := if_pos h

theorem Declared.IsEmpty.timesFor (h : m.IsEmpty) (p : Path) (a : AttrName) :
    m.timesFor p a = ∅ := by
  refine Set.eq_empty_of_forall_notMem fun t ⟨q, _, ht⟩ => ?_
  obtain ⟨attrs, hattrs, -⟩ := Option.bind_eq_some_iff.mp ht
  have hmem := InsMap.get?_eq_some.mp hattrs
  rw [h.2.1] at hmem
  exact nomatch hmem

theorem Declared.IsEmpty.attributeValues (h : m.IsEmpty) (p : Path) :
    m.attributeValues.get? p = none := by
  rw [InsMap.get?_eq_none, InsMap.keys, h.2.2]
  exact List.not_mem_nil

end

end GenieAcs
