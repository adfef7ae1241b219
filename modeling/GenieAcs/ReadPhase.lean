import GenieAcs.CpeResponses
import GenieAcs.GpnHeuristic
import GenieAcs.Lib.Batches
import GenieAcs.RefreshSets

/-!
# The read phase

`generateGetRpcRequest` takes from the sets of a session what the next request
asks for: names until none are left to be discovered, then values, then
attributes, some at a time. Between two calls the answer of the CPE changes the
device data, so that what is still to be read may turn out to be an object, or
to be gone.

Each request takes at least one path from the sets, so the read phase ends; a
value is asked for once, or not at all if the parameter was none when its turn
came (`Reads.reads_exact`).
-/

namespace GenieAcs

/-! ## Requests and configuration -/

/-- A request of the read phase, by its paths. -/
inductive ReadRequest where
  | names (path : Path) (nextLevel : Bool)
  | values (paths : List Path)
  | attributes (paths : List Path)
  deriving DecidableEq

/-- The request as it is sent. -/
def ReadRequest.toRpc : ReadRequest → RpcRequest
  | names path nextLevel =>
      .getParameterNames (if path = [] then [] else plainText path ++ js ".") nextLevel
  | values paths => .getParameterValues (paths.map plainText) none
  | attributes paths => .getParameterAttributes (paths.map plainText)

/-- `cwmp.gpnNextLevel`, `cwmp.skipRootGpn` and `cwmp.gpvBatchSize`. -/
structure ReadConfig where
  GPN_NEXT_LEVEL : ℚ := 0
  SKIP_ROOT_GPN : Bool := false
  GPV_BATCH_SIZE : ℚ := 32

/-- What a session context has on its device. -/
structure ReadState where
  deviceData : DeviceData
  syncState : SyncSets

/-! ## What is to be discovered -/

namespace ReadState

open Batch

/-- The names below the parent of `path` are to be read. -/
def discover (x : ReadState) (path : Path) : ReadState where
  deviceData := { x.deviceData with paths := x.deviceData.paths.add path.dropLast }
  syncState := { x.syncState with gpn := addPath x.syncState.gpn path.dropLast }.orPattern
    path.dropLast (Mask.bit path.dropLast.length)

/-- The known paths at or below `path`. -/
def below (x : ReadState) (path : Path) : List Path := x.deviceData.paths.find path false true 99

def refreshes (s : SyncSets) (a : AttrName) (p : Path) : Bool := p ∈ s.refreshAttributes a

/-- Another request is going to tell whether `path` exists. -/
def existFound (x : ReadState) (path : Path) : Bool :=
  (x.below path).any fun p => AttrName.all.any (refreshes x.syncState · p) || p ∈ x.syncState.gpn

/-- Another request is going to tell whether `path` is an object. -/
def objectFound (x : ReadState) (path : Path) : Bool :=
  (x.below path).any fun p => refreshes x.syncState .value p
    || (path.length < p.length && [AttrName.object, .writable, .notification, .accessList].any
      (refreshes x.syncState · p))

def discoverExist (x : ReadState) (path : Path) : ReadState :=
  if x.existFound path then x else x.discover path

def discoverObject (x : ReadState) (path : Path) : ReadState :=
  if x.objectFound path then x else x.discover path

def clearExist (x : ReadState) : ReadState :=
  { x with syncState := { x.syncState with exist := [] } }

def clearRefresh (x : ReadState) (a : AttrName) : ReadState :=
  { x with syncState := { x.syncState with
      refreshAttributes := Function.update x.syncState.refreshAttributes a [] } }

/-- The loop over `exist`. -/
def discoverExists (x : ReadState) : ReadState :=
  (x.syncState.exist.foldl discoverExist x).clearExist

/-- The loop over `object`. -/
def discoverObjects (x : ReadState) : ReadState :=
  ((x.syncState.refreshAttributes .object).foldl discoverObject x).clearRefresh .object

/-- The loop over `writable`. -/
def discoverWritables (x : ReadState) : ReadState :=
  ((x.syncState.refreshAttributes .writable).foldl discover x).clearRefresh .writable

def discoverAll (x : ReadState) : ReadState :=
  x.discoverExists.discoverObjects.discoverWritables

/-! ## Names -/

/-- `gpn`, the shortest path first: the order in which it is popped. -/
def stack (gpn : List Path) : List Path :=
  (gpn.insertionSort fun a b => b.length ≤ a.length).reverse

/-- Without the root at the top. -/
def skipRoot (SKIP_ROOT_GPN : Bool) : List Path → List Path
  | [] :: stack => if SKIP_ROOT_GPN then stack else [] :: stack
  | stack => stack

/-- The first path that is known, and what is left of `gpn`. -/
def popKnown (d : DeviceData) : List Path → List Path → Option Path × List Path
  | [], gpn => (none, gpn)
  | path :: stack, gpn =>
      if path ≠ [] ∧ d.attributes.get? path = none then popKnown d stack (gpn.erase path)
      else (some path, gpn)

/-- The patterns that are to be discovered below `path`. -/
def patternsBelow (x : ReadState) (path : Path) : List GpnPattern :=
  (path, 0) :: (x.deviceData.paths.find path true false 99).filterMap fun p =>
    ((x.syncState.gpnPatterns.get? p).filter (· ≠ 0)).map fun v =>
      (p, Mask.shl (Mask.sar v path.length) path.length)

/-- Whether only the next level is asked for. -/
def nextLevel (cfg : ReadConfig) (x : ReadState) (path : Path) : Bool :=
  let est := if cfg.GPN_NEXT_LEVEL ≤ path.length then estimateGpnCount (x.patternsBelow path) else 0
  est < 2 ^ (8 - path.length)

def withGpn (x : ReadState) (gpn : List Path) : ReadState :=
  { x with syncState := { x.syncState with gpn } }

/-- `none` if no names are to be read. -/
def readNames (cfg : ReadConfig) (x : ReadState) : ReadState × Option ReadRequest :=
  match popKnown x.deviceData (skipRoot cfg.SKIP_ROOT_GPN (stack x.syncState.gpn))
      x.syncState.gpn with
  | (none, gpn) => (x.withGpn gpn, none)
  | (some path, gpn) =>
      if nextLevel cfg x path then (x.withGpn (gpn.erase path), some (.names path true))
      else (x.withGpn (gpn.filter (· ∉ x.below path)), some (.names path false))

/-! ## Values and attributes -/

/-- `attrs?.object?.[1] === 0`. -/
def isLeaf (d : DeviceData) (p : Path) : Bool :=
  ((d.attributes.get? p).bind (· .object)).map Prod.snd = some (.num 0)

def isKnown (d : DeviceData) (p : Path) : Bool := (d.attributes.get? p).isSome

/-- What the loop over a set takes into a request. -/
def takeWanted (wanted : Path → Bool) (GPV_BATCH_SIZE : ℚ) (set paths : List Path) :
    List Path × List Path :=
  takeBatch wanted (Option.guard wanted) GPV_BATCH_SIZE set paths

def withRefresh (x : ReadState) (a : AttrName) (set : List Path) : ReadState :=
  { x with syncState := { x.syncState with
      refreshAttributes := Function.update x.syncState.refreshAttributes a set } }

def readValues (cfg : ReadConfig) (x : ReadState) : ReadState × Option ReadRequest :=
  let (paths, set) := takeWanted (isLeaf x.deviceData) cfg.GPV_BATCH_SIZE
    (x.syncState.refreshAttributes .value) []
  (x.withRefresh .value set, if paths = [] then none else some (.values paths))

/-- The loop over `notification`, which takes its paths from `accessList` too. -/
def takeNotification (d : DeviceData) (GPV_BATCH_SIZE : ℚ) :
    List Path → List Path → List Path → List Path × List Path × List Path
  | [], accessList, paths => (paths, [], accessList)
  | p :: set, accessList, paths =>
      if isKnown d p then
        if GPV_BATCH_SIZE ≤ (paths ++ [p]).length then (paths ++ [p], set, accessList.erase p)
        else takeNotification d GPV_BATCH_SIZE set (accessList.erase p) (paths ++ [p])
      else takeNotification d GPV_BATCH_SIZE set (accessList.erase p) paths

def readAttributes (cfg : ReadConfig) (x : ReadState) : ReadState × Option ReadRequest :=
  let (paths, notification, accessList) := takeNotification x.deviceData cfg.GPV_BATCH_SIZE
    (x.syncState.refreshAttributes .notification) (x.syncState.refreshAttributes .accessList) []
  let (paths, accessList) :=
    if paths.length < cfg.GPV_BATCH_SIZE then
      takeWanted (isKnown x.deviceData) cfg.GPV_BATCH_SIZE accessList paths
    else (paths, accessList)
  ((x.withRefresh .notification notification).withRefresh .accessList accessList,
    if paths = [] then none else some (.attributes paths))

/-- The next part is asked if the one before made no request. -/
def orElse (r : ReadState × Option ReadRequest)
    (next : ReadState → ReadState × Option ReadRequest) : ReadState × Option ReadRequest :=
  match r.2 with
  | some _ => r
  | none => next r.1

/-- What follows the discovery. -/
def nextRequest (cfg : ReadConfig) (x : ReadState) : ReadState × Option ReadRequest :=
  orElse (orElse (readNames cfg x) (readValues cfg)) (readAttributes cfg)

def generateGetRpcRequest (cfg : ReadConfig) (x : ReadState) : ReadState × Option ReadRequest :=
  nextRequest cfg x.discoverAll

/-! ## What discovery adds -/

theorem length_addPath (l : List Path) (p : Path) : (addPath l p).length ≤ l.length + 1 := by
  rw [addPath]
  split_ifs
  · exact Nat.le_succ _
  · exact (List.length_append ..).le

theorem nodup_addPath {l : List Path} (h : l.Nodup) (p : Path) : (addPath l p).Nodup := by
  rw [addPath]
  split_ifs with hp
  · exact h
  · exact List.nodup_append.mpr ⟨h, List.nodup_singleton p, fun _ ha _ hb heq =>
      hp (List.mem_singleton.mp hb ▸ heq ▸ ha)⟩

/-- What `gpn` holds is known, and its paths are short enough to be found. -/
structure Known (x : ReadState) : Prop where
  gpn_nodup : x.syncState.gpn.Nodup
  gpn : ∀ p ∈ x.syncState.gpn, p ∈ x.deviceData.paths ∧ p.length ≤ 99
  exist : ∀ p ∈ x.syncState.exist, p.length ≤ 99
  refresh : ∀ a, ∀ p ∈ x.syncState.refreshAttributes a, p.length ≤ 99
  refresh_nodup : ∀ a, (x.syncState.refreshAttributes a).Nodup

/-- At most `n` more paths are to be discovered. -/
structure Discovers (n : Nat) (x y : ReadState) : Prop where
  gpn_length : y.syncState.gpn.length ≤ x.syncState.gpn.length + n
  gpn_nodup : x.syncState.gpn.Nodup → y.syncState.gpn.Nodup
  gpn : ∀ p ∈ y.syncState.gpn, p ∈ x.syncState.gpn ∨ (p ∈ y.deviceData.paths ∧ p.length ≤ 99)
  gpn_kept : ∀ p ∈ x.syncState.gpn, p ∈ y.syncState.gpn
  attributes : y.deviceData.attributes = x.deviceData.attributes
  paths : ∀ p ∈ x.deviceData.paths, p ∈ y.deviceData.paths

theorem Discovers.refl (x : ReadState) (n : Nat) : Discovers n x x where
  gpn_length := Nat.le_add_right _ _
  gpn_nodup := id
  gpn _ := Or.inl
  gpn_kept _ := id
  attributes := rfl
  paths _ := id

theorem Discovers.trans {m n : Nat} {x y z : ReadState} (h : Discovers m x y)
    (h' : Discovers n y z) : Discovers (m + n) x z where
  gpn_length := by have := h.gpn_length; have := h'.gpn_length; omega
  gpn_nodup := h'.gpn_nodup ∘ h.gpn_nodup
  gpn p hp := by
    rcases h'.gpn p hp with hy | hz
    · exact (h.gpn p hy).imp_right fun hy => ⟨h'.paths p hy.1, hy.2⟩
    · exact Or.inr hz
  gpn_kept p := h'.gpn_kept p ∘ h.gpn_kept p
  attributes := h'.attributes.trans h.attributes
  paths p := h'.paths p ∘ h.paths p

theorem discovers_discover (x : ReadState) {path : Path} (h : path.length ≤ 99) :
    Discovers 1 x (x.discover path) where
  gpn_length := length_addPath _ _
  gpn_nodup hx := nodup_addPath hx _
  gpn p hp := by
    refine (mem_addPath.mp hp).imp_right fun heq => ⟨PathSet.mem_add.mpr (Or.inl heq), ?_⟩
    rw [heq, List.length_dropLast]
    omega
  gpn_kept _ hp := mem_addPath.mpr (Or.inl hp)
  attributes := rfl
  paths _ hp := PathSet.mem_add.mpr (Or.inr hp)

theorem discovers_discoverExist (x : ReadState) {path : Path} (h : path.length ≤ 99) :
    Discovers 1 x (x.discoverExist path) := by
  rw [discoverExist]
  split_ifs
  · exact .refl x 1
  · exact discovers_discover x h

theorem discovers_discoverObject (x : ReadState) {path : Path} (h : path.length ≤ 99) :
    Discovers 1 x (x.discoverObject path) := by
  rw [discoverObject]
  split_ifs
  · exact .refl x 1
  · exact discovers_discover x h

theorem Discovers.clearExist {n : Nat} {x y : ReadState} (h : Discovers n x y) :
    Discovers n x y.clearExist := ⟨h.1, h.2, h.3, h.4, h.5, h.6⟩

theorem Discovers.clearRefresh {n : Nat} {x y : ReadState} (h : Discovers n x y) (a : AttrName) :
    Discovers n x (y.clearRefresh a) := ⟨h.1, h.2, h.3, h.4, h.5, h.6⟩

/-- A loop over a set of paths. -/
theorem discovers_foldl {f : ReadState → Path → ReadState} {set : List Path}
    (h : ∀ path ∈ set, ∀ x, Discovers 1 x (f x path)) (x : ReadState) :
    Discovers set.length x (set.foldl f x) := by
  induction set generalizing x with
  | nil => exact .refl x 0
  | cons path set ih =>
      rw [List.foldl_cons, List.length_cons, Nat.add_comm]
      exact (h path List.mem_cons_self x).trans
        (ih (fun p hp => h p (List.mem_cons_of_mem _ hp)) _)

/-- A loop leaves the other sets as they are. -/
theorem foldl_frame {α : Type} (g : ReadState → α) {f : ReadState → Path → ReadState}
    (h : ∀ x path, g (f x path) = g x) (set : List Path) (x : ReadState) :
    g (set.foldl f x) = g x := by
  induction set generalizing x with
  | nil => rfl
  | cons path set ih => rw [List.foldl_cons, ih, h]

@[simp]
theorem discoverExist_syncState (x : ReadState) (path : Path) :
    (x.discoverExist path).syncState.exist = x.syncState.exist
      ∧ (x.discoverExist path).syncState.refreshAttributes = x.syncState.refreshAttributes := by
  rw [discoverExist]
  split_ifs <;> exact ⟨rfl, rfl⟩

@[simp]
theorem discoverObject_syncState (x : ReadState) (path : Path) :
    (x.discoverObject path).syncState.exist = x.syncState.exist
      ∧ (x.discoverObject path).syncState.refreshAttributes = x.syncState.refreshAttributes := by
  rw [discoverObject]
  split_ifs <;> exact ⟨rfl, rfl⟩

@[simp]
theorem discoverExists_refreshAttributes (x : ReadState) :
    x.discoverExists.syncState.refreshAttributes = x.syncState.refreshAttributes :=
  foldl_frame (f := discoverExist) (·.syncState.refreshAttributes)
    (fun x path => (discoverExist_syncState x path).2) _ x

@[simp]
theorem discoverObjects_exist (x : ReadState) :
    x.discoverObjects.syncState.exist = x.syncState.exist :=
  foldl_frame (f := discoverObject) (·.syncState.exist)
    (fun x path => (discoverObject_syncState x path).1) _ x

@[simp]
theorem discoverObjects_refreshAttributes (x : ReadState) :
    x.discoverObjects.syncState.refreshAttributes
      = Function.update x.syncState.refreshAttributes .object [] :=
  congrArg (fun r : AttrName → List Path => Function.update r .object [])
    (foldl_frame (f := discoverObject) (·.syncState.refreshAttributes)
      (fun x path => (discoverObject_syncState x path).2) _ x)

@[simp]
theorem discoverWritables_exist (x : ReadState) :
    x.discoverWritables.syncState.exist = x.syncState.exist :=
  foldl_frame (f := discover) (·.syncState.exist) (fun _ _ => rfl) _ x

@[simp]
theorem discoverWritables_refreshAttributes (x : ReadState) :
    x.discoverWritables.syncState.refreshAttributes
      = Function.update x.syncState.refreshAttributes .writable [] :=
  congrArg (fun r : AttrName → List Path => Function.update r .writable [])
    (foldl_frame (f := discover) (·.syncState.refreshAttributes) (fun _ _ => rfl) _ x)

theorem discoverAll_exist (x : ReadState) : x.discoverAll.syncState.exist = [] := by
  rw [discoverAll, discoverWritables_exist, discoverObjects_exist]
  rfl

/-- `object` and `writable` are cleared. -/
theorem discoverAll_refreshAttributes (x : ReadState) :
    x.discoverAll.syncState.refreshAttributes
      = Function.update (Function.update x.syncState.refreshAttributes .object []) .writable
        [] := by
  simp only [discoverAll, discoverWritables_refreshAttributes, discoverObjects_refreshAttributes,
    discoverExists_refreshAttributes]

theorem discovers_discoverAll {x : ReadState} (hx : x.Known) :
    Discovers (x.syncState.exist.length + (x.syncState.refreshAttributes .object).length
      + (x.syncState.refreshAttributes .writable).length) x x.discoverAll := by
  have hobject := congrFun (discoverExists_refreshAttributes x) .object
  have hwritable : x.discoverExists.discoverObjects.syncState.refreshAttributes .writable
      = x.syncState.refreshAttributes .writable := by simp
  have h1 := (discovers_foldl (f := discoverExist)
    (fun path hp y => discovers_discoverExist y (hx.exist path hp)) x).clearExist
  have h2 := (discovers_foldl (f := discoverObject)
    (fun path hp y => discovers_discoverObject y (hx.refresh .object path hp))
    x.discoverExists).clearRefresh .object
  have h3 := (discovers_foldl (f := discover)
    (fun path hp y => discovers_discover y (hx.refresh .writable path hp))
    x.discoverExists.discoverObjects).clearRefresh .writable
  rw [← hobject] at h2 ⊢
  rw [← hwritable] at h3 ⊢
  exact (h1.trans h2).trans h3

theorem known_discoverAll {x : ReadState} (hx : x.Known) : x.discoverAll.Known where
  gpn_nodup := (discovers_discoverAll hx).gpn_nodup hx.gpn_nodup
  gpn p hp := ((discovers_discoverAll hx).gpn p hp).elim
    (fun hp => ⟨(discovers_discoverAll hx).paths p (hx.gpn p hp).1, (hx.gpn p hp).2⟩) id
  exist p hp := absurd (discoverAll_exist x ▸ hp) List.not_mem_nil
  refresh a p hp := by
    rw [discoverAll_refreshAttributes] at hp
    cases a <;> simp at hp <;> exact hx.refresh _ p hp
  refresh_nodup a := by
    rw [discoverAll_refreshAttributes]
    cases a <;> simp [hx.refresh_nodup]

/-! ## Which names are read -/

theorem stack_perm (gpn : List Path) : (stack gpn).Perm gpn :=
  (List.reverse_perm _).trans (List.perm_insertionSort _ gpn)

theorem stack_pairwise (gpn : List Path) :
    (stack gpn).Pairwise fun p q => p.length ≤ q.length := by
  rw [stack, List.pairwise_reverse]
  have : IsTrans Path fun a b => b.length ≤ a.length := ⟨fun _ _ _ h h' => h'.trans h⟩
  have : Std.Total fun a b : Path => b.length ≤ a.length :=
    ⟨fun a b => Nat.le_total b.length a.length⟩
  exact List.pairwise_insertionSort _ gpn

/-- The path may be asked for: it is not the root, or the root is not skipped. -/
def MayRead (SKIP_ROOT_GPN : Bool) (p : Path) : Prop := p ≠ [] ∨ SKIP_ROOT_GPN = false

theorem mem_skipRoot {b : Bool} {l : List Path} (hnodup : l.Nodup)
    (hsorted : l.Pairwise fun p q => p.length ≤ q.length) {p : Path} :
    p ∈ skipRoot b l ↔ p ∈ l ∧ MayRead b p := by
  cases l with
  | nil => simp [skipRoot]
  | cons q l =>
      have hq := List.nodup_cons.mp hnodup
      cases q with
      | nil =>
          cases b with
          | false => simp [skipRoot, MayRead]
          | true =>
              have : p ∈ l → p ≠ [] := fun hp heq => hq.1 (heq ▸ hp)
              simp only [skipRoot, if_true, MayRead, List.mem_cons]
              grind
      | cons f fs =>
          have hne : p ∈ (f :: fs) :: l → p ≠ [] := by
            intro hp heq
            have hle : (f :: fs).length ≤ p.length := by
              rcases List.mem_cons.mp hp with rfl | hp
              · exact Nat.le_refl _
              · exact (List.pairwise_cons.mp hsorted).1 p hp
            rw [heq] at hle
            exact absurd hle (Nat.not_succ_le_zero _)
          exact ⟨fun hp => ⟨hp, Or.inl (hne hp)⟩, And.left⟩

theorem skipRoot_sublist (b : Bool) (l : List Path) : (skipRoot b l).Sublist l := by
  unfold skipRoot
  split
  · split_ifs
    · exact List.sublist_cons_self _ _
    · exact List.Sublist.refl _
  · exact List.Sublist.refl _

/-- What `popKnown` finds among the paths of `stack`. -/
structure Pops (d : DeviceData) (stack gpn : List Path) (r : Option Path × List Path) : Prop where
  sublist : r.2.Sublist gpn
  dropped : ∀ p ∈ gpn, p ∉ r.2 → p ≠ [] ∧ isKnown d p = false
  found : ∀ path ∈ r.1, path ∈ stack ∧ path ∈ r.2 ∧ (path ≠ [] → isKnown d path = true)
    ∧ ∀ p ∈ stack, p ∈ r.2 → path.length ≤ p.length
  none : r.1 = none → ∀ p ∈ stack, p ∉ r.2

theorem popKnown_spec (d : DeviceData) {stack gpn : List Path} (hgpn : gpn.Nodup)
    (hstack : stack.Nodup) (hsorted : stack.Pairwise fun p q => p.length ≤ q.length)
    (hsub : ∀ p ∈ stack, p ∈ gpn) : Pops d stack gpn (popKnown d stack gpn) := by
  induction stack generalizing gpn with
  | nil => exact ⟨.refl _, fun _ hp h => absurd hp h, by simp [popKnown], by simp⟩
  | cons path stack ih =>
      obtain ⟨hpath, hstack⟩ := List.nodup_cons.mp hstack
      obtain ⟨hle, hsorted⟩ := List.pairwise_cons.mp hsorted
      rw [popKnown]
      split_ifs with h
      · have hsub' : ∀ p ∈ stack, p ∈ gpn.erase path := fun p hp =>
          (List.mem_erase_of_ne (ne_of_mem_of_not_mem hp hpath)).mpr
            (hsub p (List.mem_cons_of_mem _ hp))
        obtain ⟨hsublist, hdropped, hfound, hnone⟩ := ih (hgpn.erase path) hstack hsorted hsub'
        have hgone : path ∉ (popKnown d stack (gpn.erase path)).2 := fun hmem =>
          (List.Nodup.mem_erase_iff hgpn).mp (hsublist.subset hmem) |>.1 rfl
        refine ⟨hsublist.trans List.erase_sublist, fun p hp hnot => ?_, fun q hq => ?_,
          fun hq => ?_⟩
        · by_cases heq : p = path
          · rw [heq, isKnown, h.2]
            exact ⟨h.1, rfl⟩
          · exact hdropped p ((List.mem_erase_of_ne heq).mpr hp) hnot
        · obtain ⟨hmem, hleft, hknown, hmin⟩ := hfound q hq
          refine ⟨List.mem_cons_of_mem _ hmem, hleft, hknown, fun p hp hp' => ?_⟩
          rcases List.mem_cons.mp hp with rfl | hp
          · exact absurd hp' hgone
          · exact hmin p hp hp'
        · exact List.forall_mem_cons.mpr ⟨hgone, hnone hq⟩
      · refine ⟨.refl _, fun _ hp h => absurd hp h, fun q hq => ?_, by simp⟩
        cases hq
        refine ⟨List.mem_cons_self, hsub path List.mem_cons_self, fun hne => ?_, fun p hp _ => ?_⟩
        · rw [isKnown, Option.isSome_iff_ne_none]
          exact fun hnone => h ⟨hne, hnone⟩
        · rcases List.mem_cons.mp hp with rfl | hp
          · exact Nat.le_refl _
          · exact hle p hp

/-- The path is at or below `q`. -/
def AtOrBelow (q p : Path) : Prop :=
  q.length ≤ p.length ∧ ∀ i < q.length, PathSet.Agrees q false true i p

theorem atOrBelow_self (p : Path) : AtOrBelow p p :=
  ⟨Nat.le_refl _, fun i hi => Or.inr (Or.inl (by simp [hi]))⟩

theorem mem_below {x : ReadState} {q p : Path} :
    p ∈ x.below q ↔ p ∈ x.deviceData.paths ∧ p.length ≤ 99 ∧ AtOrBelow q p := by
  rw [below, PathSet.mem_find, AtOrBelow]
  tauto

/-- The request asks for the names at the path. -/
def ReadRequest.CoversNames (p : Path) : ReadRequest → Prop
  | .names q nextLevel => q = p ∨ (nextLevel = false ∧ AtOrBelow q p)
  | _ => False

/-- What one call does with `gpn`. -/
structure ReadsNames (cfg : ReadConfig) (d : DeviceData) (gpn left : List Path)
    (r : Option ReadRequest) : Prop where
  sublist : left.Sublist gpn
  dropped : ∀ p ∈ gpn, p ∉ left →
    (p ≠ [] ∧ isKnown d p = false) ∨ ∃ request ∈ r, ReadRequest.CoversNames p request
  found : ∀ q nextLevel, r = some (.names q nextLevel) →
    q ∈ gpn ∧ q ∉ left ∧ MayRead cfg.SKIP_ROOT_GPN q ∧ (q ≠ [] → isKnown d q = true)
      ∧ ∀ p ∈ left, MayRead cfg.SKIP_ROOT_GPN p → q.length ≤ p.length
  rest : (∀ q nextLevel, r ≠ some (.names q nextLevel)) →
    ∀ p ∈ left, ¬ MayRead cfg.SKIP_ROOT_GPN p

theorem readNames_spec {cfg : ReadConfig} {x : ReadState} (hx : x.Known) :
    ∃ left, (readNames cfg x).1 = x.withGpn left
      ∧ ReadsNames cfg x.deviceData x.syncState.gpn left (readNames cfg x).2
      ∧ ∀ request ∈ (readNames cfg x).2, ∃ q nextLevel, request = .names q nextLevel := by
  have hnodup : (stack x.syncState.gpn).Nodup := (stack_perm _).nodup_iff.mpr hx.gpn_nodup
  have hsorted := stack_pairwise x.syncState.gpn
  have hmem : ∀ p, p ∈ skipRoot cfg.SKIP_ROOT_GPN (stack x.syncState.gpn)
      ↔ p ∈ x.syncState.gpn ∧ MayRead cfg.SKIP_ROOT_GPN p := fun p => by
    rw [mem_skipRoot hnodup hsorted, (stack_perm _).mem_iff]
  have hsub := skipRoot_sublist cfg.SKIP_ROOT_GPN (stack x.syncState.gpn)
  obtain ⟨hsublist, hdropped, hfound, hnone⟩ := popKnown_spec x.deviceData hx.gpn_nodup
    (hnodup.sublist hsub) (hsorted.sublist hsub) (fun p hp => ((hmem p).mp hp).1)
  rw [readNames]
  cases hpop : popKnown x.deviceData (skipRoot cfg.SKIP_ROOT_GPN (stack x.syncState.gpn))
      x.syncState.gpn with
  | mk found gpn =>
      rw [hpop] at hsublist hdropped hfound hnone
      cases found with
      | none =>
          refine ⟨gpn, rfl, ⟨hsublist, fun p hp h => Or.inl (hdropped p hp h), by simp,
            fun _ p hp hmay => ?_⟩, by simp⟩
          exact hnone rfl p ((hmem p).mpr ⟨hsublist.subset hp, hmay⟩) hp
      | some path =>
          obtain ⟨hpath, hleft, hknown, hmin⟩ := hfound path rfl
          obtain ⟨hgpn, hmay⟩ := (hmem path).mp hpath
          have hmin' : ∀ left : List Path, left.Sublist gpn → ∀ p ∈ left,
              MayRead cfg.SKIP_ROOT_GPN p → path.length ≤ p.length := fun left h p hp hmay =>
            hmin p ((hmem p).mpr ⟨(h.trans hsublist).subset hp, hmay⟩) (h.subset hp)
          dsimp only
          split_ifs with hnext
          · have hone : (gpn.erase path).Sublist gpn := List.erase_sublist
            refine ⟨gpn.erase path, rfl, ⟨hone.trans hsublist, fun p hp h => ?_, ?_, ?_⟩, ?_⟩
            · by_cases hp' : p ∈ gpn
              · have heq : p = path := by
                  by_contra hne
                  exact h ((List.mem_erase_of_ne hne).mpr hp')
                exact Or.inr ⟨_, rfl, Or.inl heq.symm⟩
              · exact Or.inl (hdropped p hp hp')
            · intro q nl hq
              cases hq
              refine ⟨hgpn, fun hmem => ?_, hmay, hknown, hmin' _ hone⟩
              exact ((hx.gpn_nodup.sublist hsublist).mem_erase_iff.mp hmem).1 rfl
            · exact fun h => absurd rfl (h path true)
            · rintro _ ⟨⟩
              exact ⟨path, true, rfl⟩
          · have hsome : (gpn.filter (· ∉ x.below path)).Sublist gpn := List.filter_sublist
            refine ⟨_, rfl, ⟨hsome.trans hsublist, fun p hp h => ?_, ?_, ?_⟩, ?_⟩
            · by_cases hp' : p ∈ gpn
              · refine Or.inr ⟨_, rfl, Or.inr ⟨rfl, (mem_below (x := x)).mp ?_ |>.2.2⟩⟩
                by_contra hnot
                exact h (List.mem_filter.mpr ⟨hp', by simpa using hnot⟩)
              · exact Or.inl (hdropped p hp hp')
            · intro q nl hq
              cases hq
              refine ⟨hgpn, fun hmem => ?_, hmay, hknown, hmin' _ hsome⟩
              have hbelow : path ∈ x.below path := mem_below.mpr
                ⟨(hx.gpn path hgpn).1, (hx.gpn path hgpn).2, atOrBelow_self path⟩
              simp [hbelow] at hmem
            · exact fun h => absurd rfl (h path false)
            · rintro _ ⟨⟩
              exact ⟨path, false, rfl⟩

/-! ## Which values and attributes are read -/

theorem takeWanted_spec (wanted : Path → Bool) (n : ℚ) (set paths : List Path) :
    ∃ piece, set = piece ++ (takeWanted wanted n set paths).2
      ∧ (takeWanted wanted n set paths).1 = paths ++ piece.filterMap (Option.guard wanted)
      ∧ ((takeWanted wanted n set paths).2 = [] ∨ n ≤ (takeWanted wanted n set paths).1.length)
      ∧ (takeWanted wanted n set paths).1.length ≤ max (paths.length + 1) ⌈n⌉₊ :=
  takeBatch_spec (fun p => by simp [Option.guard]) n set paths

theorem filter_erase {l : List Path} (h : l.Nodup) (p : Path) (piece : List Path) :
    (l.erase p).filter (· ∉ piece) = l.filter (· ∉ p :: piece) := by
  rw [h.erase_eq_filter, List.filter_filter]
  refine List.filter_congr fun q _ => ?_
  by_cases heq : q = p <;> simp [heq]

theorem takeNotification_spec (d : DeviceData) (n : ℚ) (set paths : List Path)
    {accessList : List Path} (h : accessList.Nodup) :
    ∃ piece, set = piece ++ (takeNotification d n set accessList paths).2.1
      ∧ (takeNotification d n set accessList paths).1
        = paths ++ piece.filterMap (Option.guard (isKnown d))
      ∧ (takeNotification d n set accessList paths).2.2 = accessList.filter (· ∉ piece)
      ∧ ((takeNotification d n set accessList paths).2.1 = []
        ∨ n ≤ (takeNotification d n set accessList paths).1.length)
      ∧ (takeNotification d n set accessList paths).1.length ≤ max (paths.length + 1) ⌈n⌉₊ := by
  induction set generalizing paths accessList with
  | nil => exact ⟨[], by simp [takeNotification]⟩
  | cons p set ih =>
      rw [takeNotification]
      split_ifs with hp hfull
      · exact ⟨[p], rfl, by simp [Option.guard, hp], by rw [← filter_erase h]; simp, Or.inr hfull,
          by simp⟩
      · obtain ⟨piece, hset, hpaths, haccess, hend, hlength⟩ :=
          ih (paths ++ [p]) (h.erase p)
        refine ⟨p :: piece, by rw [List.cons_append, ← hset], by simp [hpaths, Option.guard, hp],
          by rw [haccess, filter_erase h], hend, hlength.trans ?_⟩
        rw [not_le, ← Nat.lt_ceil] at hfull
        exact max_le (hfull.trans_le (le_max_right _ _)) (le_max_right _ _)
      · obtain ⟨piece, hset, hpaths, haccess, hend, hlength⟩ := ih paths (h.erase p)
        exact ⟨p :: piece, by rw [List.cons_append, ← hset], by simp [hpaths, Option.guard, hp],
          by rw [haccess, filter_erase h], hend, hlength⟩

/-- The paths of `notification`, then those that only `accessList` has. -/
def attributeQueue (x : ReadState) : List Path :=
  x.syncState.refreshAttributes .notification
    ++ (x.syncState.refreshAttributes .accessList).filter
      (· ∉ x.syncState.refreshAttributes .notification)

theorem readValues_spec {cfg : ReadConfig} (hbatch : 0 < cfg.GPV_BATCH_SIZE) (x : ReadState) :
    ∃ left paths, readValues cfg x
        = (x.withRefresh .value left, if paths = [] then none else some (.values paths))
      ∧ Takes (Option.guard (isLeaf x.deviceData)) (x.syncState.refreshAttributes .value) left paths
      ∧ paths.length ≤ max 1 ⌈cfg.GPV_BATCH_SIZE⌉₊ ∧ (paths = [] → left = []) := by
  obtain ⟨piece, hset, hpaths, hend, hlength⟩ := takeWanted_spec (isLeaf x.deviceData)
    cfg.GPV_BATCH_SIZE (x.syncState.refreshAttributes .value) []
  exact ⟨_, _, rfl, ⟨piece, hset, hpaths⟩, hlength, left_nil hbatch hend⟩

theorem readAttributes_spec {cfg : ReadConfig} (hbatch : 0 < cfg.GPV_BATCH_SIZE) {x : ReadState}
    (hx : (x.syncState.refreshAttributes .accessList).Nodup) :
    ∃ notification accessList paths, readAttributes cfg x
        = ((x.withRefresh .notification notification).withRefresh .accessList accessList,
          if paths = [] then none else some (.attributes paths))
      ∧ Takes (Option.guard (isKnown x.deviceData)) x.attributeQueue
        (notification ++ accessList.filter (· ∉ notification)) paths
      ∧ notification.Sublist (x.syncState.refreshAttributes .notification)
      ∧ accessList.Sublist (x.syncState.refreshAttributes .accessList)
      ∧ paths.length ≤ max 1 ⌈cfg.GPV_BATCH_SIZE⌉₊
      ∧ (paths = [] → notification ++ accessList.filter (· ∉ notification) = []) := by
  obtain ⟨piece, hset, hpaths, haccess, hend, hlength⟩ := takeNotification_spec x.deviceData
    cfg.GPV_BATCH_SIZE (x.syncState.refreshAttributes .notification) [] hx
  rw [readAttributes]
  generalize takeNotification x.deviceData cfg.GPV_BATCH_SIZE
    (x.syncState.refreshAttributes .notification) (x.syncState.refreshAttributes .accessList) []
    = r at hset hpaths haccess hend hlength
  obtain ⟨paths, notification, accessList⟩ := r
  dsimp only at hset hpaths haccess hend hlength ⊢
  have hqueue : x.attributeQueue
      = piece ++ (notification ++ accessList.filter (· ∉ notification)) := by
    have hfilter : (x.syncState.refreshAttributes .accessList).filter (· ∉ piece ++ notification)
        = accessList.filter (· ∉ notification) := by
      rw [haccess, List.filter_filter]
      exact List.filter_congr fun q _ => by simp [Bool.and_comm]
    rw [attributeQueue, hset, hfilter, List.append_assoc]
  have hnotification : notification.Sublist (x.syncState.refreshAttributes .notification) := by
    rw [hset]
    exact List.sublist_append_right _ _
  have haccessList : accessList.Sublist (x.syncState.refreshAttributes .accessList) := by
    rw [haccess]
    exact List.filter_sublist
  by_cases hfull : (paths.length : ℚ) < cfg.GPV_BATCH_SIZE
  · obtain ⟨piece', hset', hpaths', hend', hlength'⟩ := takeWanted_spec (isKnown x.deviceData)
      cfg.GPV_BATCH_SIZE accessList paths
    obtain rfl : notification = [] := hend.resolve_right (not_le.mpr hfull)
    simp only [if_pos hfull, List.not_mem_nil, not_false_eq_true, decide_true, List.filter_true,
      List.nil_append] at hqueue hpaths ⊢
    refine ⟨[], _, _, rfl, ⟨piece ++ piece', ?_, ?_⟩, hnotification, ?_, ?_, ?_⟩
    · simp only [hqueue, List.append_assoc, List.not_mem_nil, not_false_eq_true, decide_true,
        List.filter_true, List.nil_append, ← hset']
    · rw [hpaths', hpaths, List.filterMap_append]
    · refine List.Sublist.trans ?_ haccessList
      nth_rewrite 2 [hset']
      exact List.sublist_append_right _ _
    · refine hlength'.trans (max_le ?_ (le_max_right _ _))
      exact (Nat.lt_ceil.mpr hfull).trans_le (le_max_right _ _)
    · intro hnil
      simpa using left_nil hbatch hend' hnil
  · simp only [if_neg hfull]
    refine ⟨notification, accessList, paths, rfl, ⟨piece, hqueue, hpaths⟩, hnotification,
      haccessList, hlength, fun hnil => absurd ?_ hfull⟩
    rw [hnil]
    exact hbatch

/-! ## One call -/

/-- The paths whose values are asked for. -/
def valuePaths : Option ReadRequest → List Path
  | some (.values paths) => paths
  | _ => []

def attributePaths : Option ReadRequest → List Path
  | some (.attributes paths) => paths
  | _ => []

def namePaths : Option ReadRequest → List Path
  | some (.names path _) => [path]
  | _ => []

/-- What is still to be found and read. -/
def pending (x : ReadState) : Nat :=
  x.syncState.exist.length + (x.syncState.refreshAttributes .object).length
    + (x.syncState.refreshAttributes .writable).length + x.syncState.gpn.length
    + (x.syncState.refreshAttributes .value).length + x.attributeQueue.length

/-- What a call does after the discovery: it makes the request `r` and leaves `y`. -/
structure Calls (cfg : ReadConfig) (x y : ReadState) (r : Option ReadRequest) : Prop where
  names : ReadsNames cfg x.deviceData x.syncState.gpn y.syncState.gpn r
  values : Takes (Option.guard (isLeaf x.deviceData)) (x.syncState.refreshAttributes .value)
    (y.syncState.refreshAttributes .value) (valuePaths r)
  attributes : Takes (Option.guard (isKnown x.deviceData)) x.attributeQueue y.attributeQueue
    (attributePaths r)
  values_length : (valuePaths r).length ≤ max 1 ⌈cfg.GPV_BATCH_SIZE⌉₊
  attributes_length : (attributePaths r).length ≤ max 1 ⌈cfg.GPV_BATCH_SIZE⌉₊
  ended : r = none → y.syncState.refreshAttributes .value = [] ∧ y.attributeQueue = []
  nonempty : ∀ request ∈ r, valuePaths r ≠ [] ∨ attributePaths r ≠ [] ∨ namePaths r ≠ []
  deviceData : y.deviceData = x.deviceData
  exist : y.syncState.exist = x.syncState.exist
  refresh : ∀ a, (y.syncState.refreshAttributes a).Sublist (x.syncState.refreshAttributes a)

theorem ReadsNames.of_none {cfg : ReadConfig} {d : DeviceData} {gpn left : List Path}
    (h : ReadsNames cfg d gpn left none) {r : Option ReadRequest}
    (hr : ∀ q nextLevel, r ≠ some (.names q nextLevel)) : ReadsNames cfg d gpn left r where
  sublist := h.sublist
  dropped p hp hnot := (h.dropped p hp hnot).imp_right (by simp)
  found q nextLevel hq := absurd hq (hr q nextLevel)
  rest _ := h.rest (by simp)

theorem orElse_some {r : ReadState × Option ReadRequest} {request : ReadRequest}
    (h : r.2 = some request) (next : ReadState → ReadState × Option ReadRequest) :
    orElse r next = r := by
  rw [orElse, h]

theorem orElse_none {r : ReadState × Option ReadRequest} (h : r.2 = none)
    (next : ReadState → ReadState × Option ReadRequest) : orElse r next = next r.1 := by
  rw [orElse, h]

theorem withRefresh_sublist (x : ReadState) {a : AttrName} {set : List Path}
    (h : set.Sublist (x.syncState.refreshAttributes a)) (b : AttrName) :
    ((x.withRefresh a set).syncState.refreshAttributes b).Sublist
      (x.syncState.refreshAttributes b) := by
  rw [withRefresh]
  by_cases hb : b = a
  · subst hb
    simpa using h
  · simp [Function.update_of_ne hb]

theorem calls_nextRequest {cfg : ReadConfig} (hbatch : 0 < cfg.GPV_BATCH_SIZE) {x : ReadState}
    (hx : x.Known) : Calls cfg x (nextRequest cfg x).1 (nextRequest cfg x).2 := by
  obtain ⟨left, hleft, hnames, hkind⟩ := @readNames_spec cfg x hx
  rw [nextRequest]
  cases hr : (readNames cfg x).2 with
  | some request =>
      obtain ⟨q, nextLevel, rfl⟩ := hkind request hr
      rw [orElse_some hr, orElse_some hr, hleft, hr]
      rw [hr] at hnames
      exact {
        names := hnames
        values := .refl _ _
        attributes := .refl _ _
        values_length := Nat.zero_le _
        attributes_length := Nat.zero_le _
        ended := by simp
        nonempty := fun _ _ => Or.inr (Or.inr (List.cons_ne_nil _ _))
        deviceData := rfl
        exist := rfl
        refresh := fun _ => .refl _ }
  | none =>
      rw [orElse_none hr, hleft]
      rw [hr] at hnames
      obtain ⟨value, paths, hvalues, htakes, hlength, hnil⟩ :=
        readValues_spec hbatch (x.withGpn left)
      rw [hvalues]
      by_cases hpaths : paths = []
      · obtain
          ⟨notification, accessList, attributes, hread, hqueue, hsub, hsub', hlength', hnil'⟩ :=
          readAttributes_spec hbatch (x := (x.withGpn left).withRefresh .value value)
            (hx.refresh_nodup .accessList)
        rw [if_pos hpaths, orElse_none rfl, hread]
        have hleft' : (((((x.withGpn left).withRefresh .value value).withRefresh .notification
            notification).withRefresh .accessList accessList)).attributeQueue
              = notification ++ accessList.filter (· ∉ notification) := by
          simp [attributeQueue, withRefresh]
        have hkind' : ∀ q nextLevel, (if attributes = [] then none
            else some (ReadRequest.attributes attributes)) ≠ some (.names q nextLevel) := by
          intro q nextLevel
          split_ifs <;> simp
        have hattributes : attributePaths (if attributes = [] then none
            else some (ReadRequest.attributes attributes)) = attributes := by
          split_ifs with h
          · exact h.symm
          · rfl
        have hvalue : valuePaths (if attributes = [] then none
            else some (ReadRequest.attributes attributes)) = [] := by
          split_ifs <;> rfl
        exact {
          names := hnames.of_none hkind'
          values := by
            rw [hvalue]
            exact hpaths ▸ htakes
          attributes := by
            rw [hattributes, hleft']
            exact hqueue
          values_length := by simp [hvalue]
          attributes_length := by rwa [hattributes]
          ended := fun hnone => by
            have h : attributes = [] := by
              by_contra h
              simp [h] at hnone
            exact ⟨hnil hpaths, hleft'.trans (hnil' h)⟩
          nonempty := fun request hrequest => by
            rw [hattributes]
            refine Or.inr (Or.inl fun h => ?_)
            simp [h] at hrequest
          deviceData := rfl
          exist := rfl
          refresh := fun a => (withRefresh_sublist (((x.withGpn left).withRefresh .value
              value).withRefresh .notification notification) hsub' a).trans
            ((withRefresh_sublist _ hsub a).trans
              ((x.withGpn left).withRefresh_sublist htakes.sublist a)) }
      · rw [if_neg hpaths, orElse_some rfl]
        exact {
          names := hnames.of_none (by simp)
          values := htakes
          attributes := .refl _ _
          values_length := hlength
          attributes_length := Nat.zero_le _
          ended := by simp
          nonempty := fun _ _ => Or.inl hpaths
          deviceData := rfl
          exist := rfl
          refresh := (x.withGpn left).withRefresh_sublist htakes.sublist }

theorem ReadsNames.length_lt {cfg : ReadConfig} {d : DeviceData} {gpn left : List Path}
    {r : Option ReadRequest} (h : ReadsNames cfg d gpn left r) (hr : namePaths r ≠ []) :
    left.length < gpn.length := by
  refine lt_of_le_of_ne h.sublist.length_le fun heq => ?_
  have hsame : left = gpn := h.sublist.eq_of_length heq
  unfold namePaths at hr
  split at hr
  · obtain ⟨hmem, hnot, -⟩ := h.found _ _ rfl
    exact hnot (hsame ▸ hmem)
  · exact hr rfl

/-- A request takes at least one path. -/
theorem Calls.pending_le {cfg : ReadConfig} {x y : ReadState} {r : Option ReadRequest}
    (h : Calls cfg x y r) : y.pending + r.toList.length ≤ x.pending := by
  have hgpn := h.names.sublist.length_le
  have hvalues := h.values.length_le
  have hattributes := h.attributes.length_le
  have hobject := (h.refresh .object).length_le
  have hwritable := (h.refresh .writable).length_le
  have hexist := congrArg List.length h.exist
  rw [pending, pending]
  cases r with
  | none =>
      rw [Option.toList_none, List.length_nil]
      omega
  | some request =>
      rw [Option.toList_some, List.length_singleton]
      rcases h.nonempty request rfl with hne | hne | hne
      · have := h.values.length_lt hne
        omega
      · have := h.attributes.length_lt hne
        omega
      · have := h.names.length_lt hne
        omega

theorem refresh_discoverAll {x : ReadState} {a : AttrName} (hobject : a ≠ .object)
    (hwritable : a ≠ .writable) :
    x.discoverAll.syncState.refreshAttributes a = x.syncState.refreshAttributes a := by
  rw [discoverAll_refreshAttributes, Function.update_of_ne hwritable, Function.update_of_ne hobject]

theorem isLeaf_discoverAll {x : ReadState} (hx : x.Known) :
    isLeaf x.discoverAll.deviceData = isLeaf x.deviceData := by
  funext p
  rw [isLeaf, isLeaf, (discovers_discoverAll hx).attributes]

theorem isKnown_discoverAll {x : ReadState} (hx : x.Known) :
    isKnown x.discoverAll.deviceData = isKnown x.deviceData := by
  funext p
  rw [isKnown, isKnown, (discovers_discoverAll hx).attributes]

/-- Nothing is to be discovered. -/
structure Discovered (x : ReadState) : Prop where
  exist : x.syncState.exist = []
  object : x.syncState.refreshAttributes .object = []
  writable : x.syncState.refreshAttributes .writable = []

theorem discovered_discoverAll (x : ReadState) : x.discoverAll.Discovered where
  exist := discoverAll_exist x
  object := by simp [discoverAll_refreshAttributes]
  writable := by simp [discoverAll_refreshAttributes]

theorem attributeQueue_discoverAll (x : ReadState) :
    x.discoverAll.attributeQueue = x.attributeQueue := by
  rw [attributeQueue, attributeQueue,
    refresh_discoverAll (a := .notification) (by decide) (by decide),
    refresh_discoverAll (a := .accessList) (by decide) (by decide)]

theorem pending_discoverAll {x : ReadState} (hx : x.Known) :
    x.discoverAll.pending ≤ x.pending := by
  have hlength := (discovers_discoverAll hx).gpn_length
  have hclear := discovered_discoverAll x
  rw [pending, pending, attributeQueue_discoverAll, hclear.exist, hclear.object, hclear.writable,
    refresh_discoverAll (a := .value) (by decide) (by decide),
    List.length_nil]
  omega

theorem Known.calls {cfg : ReadConfig} {x y : ReadState} {r : Option ReadRequest} (hx : x.Known)
    (h : Calls cfg x y r) : y.Known where
  gpn_nodup := hx.gpn_nodup.sublist h.names.sublist
  gpn p hp := h.deviceData ▸ hx.gpn p (h.names.sublist.subset hp)
  exist p hp := hx.exist p (h.exist ▸ hp)
  refresh a p hp := hx.refresh a p ((h.refresh a).subset hp)
  refresh_nodup a := (hx.refresh_nodup a).sublist (h.refresh a)

theorem Discovered.calls {cfg : ReadConfig} {x y : ReadState} {r : Option ReadRequest}
    (hx : x.Discovered) (h : Calls cfg x y r) : y.Discovered where
  exist := h.exist.trans hx.exist
  object := List.sublist_nil.mp (hx.object ▸ h.refresh .object)
  writable := List.sublist_nil.mp (hx.writable ▸ h.refresh .writable)

theorem clearRefresh_self {x : ReadState} {a : AttrName}
    (h : x.syncState.refreshAttributes a = []) : x.clearRefresh a = x := by
  rw [clearRefresh, ← h, Function.update_eq_self]

theorem Discovered.discoverAll {x : ReadState} (hx : x.Discovered) : x.discoverAll = x := by
  have hexists : x.discoverExists = x := by
    rw [discoverExists, hx.exist, List.foldl_nil, clearExist, ← hx.exist]
  have hobjects : x.discoverObjects = x := by
    rw [discoverObjects, hx.object, List.foldl_nil, clearRefresh_self hx.object]
  rw [ReadState.discoverAll, hexists, hobjects, discoverWritables, hx.writable, List.foldl_nil,
    clearRefresh_self hx.writable]

/-! ## The phase -/

/-- Between two calls an answer changes the device data; no path is forgotten. -/
structure Follows (x y : ReadState) : Prop where
  syncState : y.syncState = x.syncState
  paths : ∀ p ∈ x.deviceData.paths, p ∈ y.deviceData.paths

/-- Calls in a row, each with the device data it was made at. -/
inductive Reads (cfg : ReadConfig) :
    ReadState → List (DeviceData × Option ReadRequest) → ReadState → Prop where
  | refl (x : ReadState) : Reads cfg x [] x
  | call {x x' y : ReadState} {calls : List (DeviceData × Option ReadRequest)}
      (follows : Follows (generateGetRpcRequest cfg x).1 x') (rest : Reads cfg x' calls y) :
      Reads cfg x ((x.deviceData, (generateGetRpcRequest cfg x).2) :: calls) y

theorem Known.follows {x y : ReadState} (hx : x.Known) (h : Follows x y) : y.Known where
  gpn_nodup := h.syncState ▸ hx.gpn_nodup
  gpn p hp := ⟨h.paths p (hx.gpn p (h.syncState ▸ hp)).1, (hx.gpn p (h.syncState ▸ hp)).2⟩
  exist := h.syncState ▸ hx.exist
  refresh := h.syncState ▸ hx.refresh
  refresh_nodup := h.syncState ▸ hx.refresh_nodup

theorem Discovered.follows {x y : ReadState} (hx : x.Discovered) (h : Follows x y) :
    y.Discovered where
  exist := h.syncState ▸ hx.exist
  object := h.syncState ▸ hx.object
  writable := h.syncState ▸ hx.writable

/-- What one call does, whatever is to be discovered before. -/
theorem calls_generate {cfg : ReadConfig} (hbatch : 0 < cfg.GPV_BATCH_SIZE) {x : ReadState}
    (hx : x.Known) :
    Calls cfg x.discoverAll (generateGetRpcRequest cfg x).1 (generateGetRpcRequest cfg x).2 :=
  calls_nextRequest hbatch (known_discoverAll hx)

theorem Reads.known {cfg : ReadConfig} (hbatch : 0 < cfg.GPV_BATCH_SIZE) {x x' : ReadState}
    (hx : x.Known) (h : Follows (generateGetRpcRequest cfg x).1 x') : x'.Known :=
  ((known_discoverAll hx).calls (calls_generate hbatch hx)).follows h

theorem Follows.pending {x y : ReadState} (h : Follows x y) : y.pending = x.pending := by
  rw [ReadState.pending, ReadState.pending, attributeQueue, attributeQueue, h.syncState]

theorem Reads.pending_le {cfg : ReadConfig} (hbatch : 0 < cfg.GPV_BATCH_SIZE) {x y : ReadState}
    {calls : List (DeviceData × Option ReadRequest)} (h : Reads cfg x calls y) (hx : x.Known) :
    (calls.filterMap Prod.snd).length + y.pending ≤ x.pending := by
  induction h with
  | refl x => simp
  | @call x x' y calls follows rest ih =>
      have hstep := (calls_generate hbatch hx).pending_le
      have hdiscover := pending_discoverAll hx
      have hrest := ih (Reads.known hbatch hx follows)
      rw [follows.pending] at hrest
      have hcons : (((x.deviceData, (generateGetRpcRequest cfg x).2) :: calls).filterMap
          Prod.snd).length = (generateGetRpcRequest cfg x).2.toList.length
            + (calls.filterMap Prod.snd).length := by
        cases (generateGetRpcRequest cfg x).2 <;> simp [Nat.add_comm]
      omega

theorem Reads.values {cfg : ReadConfig} (hbatch : 0 < cfg.GPV_BATCH_SIZE) {x y : ReadState}
    {calls : List (DeviceData × Option ReadRequest)} (h : Reads cfg x calls y) (hx : x.Known) :
    TakesAll (fun d => Option.guard (isLeaf d)) valuePaths (x.syncState.refreshAttributes .value)
      (y.syncState.refreshAttributes .value) calls := by
  induction h with
  | refl x => exact ⟨[], rfl, .nil⟩
  | call follows rest ih =>
      have hstep := (calls_generate hbatch hx).values
      rw [isLeaf_discoverAll hx, refresh_discoverAll (by decide) (by decide),
        ← follows.syncState] at hstep
      exact .cons hstep (ih (Reads.known hbatch hx follows))

theorem Follows.attributeQueue {x y : ReadState} (h : Follows x y) :
    y.attributeQueue = x.attributeQueue := by
  rw [ReadState.attributeQueue, ReadState.attributeQueue, h.syncState]

theorem Reads.attributes {cfg : ReadConfig} (hbatch : 0 < cfg.GPV_BATCH_SIZE) {x y : ReadState}
    {calls : List (DeviceData × Option ReadRequest)} (h : Reads cfg x calls y) (hx : x.Known) :
    TakesAll (fun d => Option.guard (isKnown d)) attributePaths x.attributeQueue y.attributeQueue
      calls := by
  induction h with
  | refl x => exact ⟨[], rfl, .nil⟩
  | call follows rest ih =>
      have hstep := (calls_generate hbatch hx).attributes
      rw [isKnown_discoverAll hx, attributeQueue_discoverAll, ← follows.attributeQueue] at hstep
      exact .cons hstep (ih (Reads.known hbatch hx follows))

/-- The names at `p` are asked for, or `p` is gone at one of the calls. -/
def NamesRead (p : Path) (calls : List (DeviceData × Option ReadRequest)) : Prop :=
  ∃ call ∈ calls, (p ≠ [] ∧ isKnown call.1 p = false)
    ∨ ∃ request ∈ call.2, ReadRequest.CoversNames p request

theorem NamesRead.cons {p : Path} {calls : List (DeviceData × Option ReadRequest)}
    (h : NamesRead p calls) (call : DeviceData × Option ReadRequest) :
    NamesRead p (call :: calls) := by
  obtain ⟨c, hc, h⟩ := h
  exact ⟨c, List.mem_cons_of_mem _ hc, h⟩

/-- The names that are asked for: each path once, the shortest first. -/
structure ReadsInOrder (SKIP_ROOT_GPN : Bool) (gpn left : List Path)
    (calls : List (DeviceData × Option ReadRequest)) : Prop where
  sublist : left.Sublist gpn
  read : ∀ p ∈ gpn, p ∈ left ∨ NamesRead p calls
  mem : ∀ call ∈ calls, ∀ q ∈ namePaths call.2,
    q ∈ gpn ∧ q ∉ left ∧ MayRead SKIP_ROOT_GPN q ∧ (q ≠ [] → isKnown call.1 q = true)
  sorted : (calls.flatMap (namePaths ·.2)).Pairwise fun p q => p.length ≤ q.length ∧ p ≠ q

theorem ReadsNames.mem {cfg : ReadConfig} {d : DeviceData} {gpn left : List Path}
    {r : Option ReadRequest} (h : ReadsNames cfg d gpn left r) {q : Path} (hq : q ∈ namePaths r) :
    q ∈ gpn ∧ q ∉ left ∧ MayRead cfg.SKIP_ROOT_GPN q ∧ (q ≠ [] → isKnown d q = true)
      ∧ ∀ p ∈ left, MayRead cfg.SKIP_ROOT_GPN p → q.length ≤ p.length := by
  unfold namePaths at hq
  split at hq
  · obtain rfl := List.mem_singleton.mp hq
    exact h.found _ _ rfl
  · exact absurd hq List.not_mem_nil

theorem namePaths_pairwise (R : Path → Path → Prop) (r : Option ReadRequest) :
    (namePaths r).Pairwise R := by
  unfold namePaths
  split
  · exact List.pairwise_singleton R _
  · exact .nil

theorem ReadsInOrder.cons {cfg : ReadConfig} {d : DeviceData} {r : Option ReadRequest}
    {gpn left left' : List Path} {calls : List (DeviceData × Option ReadRequest)}
    (h : ReadsNames cfg d gpn left r) (h' : ReadsInOrder cfg.SKIP_ROOT_GPN left left' calls) :
    ReadsInOrder cfg.SKIP_ROOT_GPN gpn left' ((d, r) :: calls) where
  sublist := h'.sublist.trans h.sublist
  read p hp := by
    by_cases hmem : p ∈ left
    · exact (h'.read p hmem).imp_right fun hread => hread.cons _
    · exact Or.inr ⟨_, List.mem_cons_self, h.dropped p hp hmem⟩
  mem call hcall q hq := by
    rcases List.mem_cons.mp hcall with rfl | hcall
    · obtain ⟨hmem, hnot, hmay, hknown, -⟩ := h.mem hq
      exact ⟨hmem, fun hleft => hnot (h'.sublist.subset hleft), hmay, hknown⟩
    · obtain ⟨hmem, hrest⟩ := h'.mem call hcall q hq
      exact ⟨h.sublist.subset hmem, hrest⟩
  sorted := by
    rw [List.flatMap_cons, List.pairwise_append]
    refine ⟨namePaths_pairwise _ r, h'.sorted, fun q hq p hp => ?_⟩
    obtain ⟨call, hcall, hp⟩ := List.mem_flatMap.mp hp
    obtain ⟨hmem, -, hmay, -⟩ := h'.mem call hcall p hp
    obtain ⟨-, hnot, -, -, hmin⟩ := h.mem hq
    exact ⟨hmin p hmem hmay, fun heq => hnot (heq ▸ hmem)⟩

theorem Reads.names {cfg : ReadConfig} (hbatch : 0 < cfg.GPV_BATCH_SIZE) {x y : ReadState}
    {calls : List (DeviceData × Option ReadRequest)} (h : Reads cfg x calls y) (hx : x.Known)
    (hclear : x.Discovered) :
    ReadsInOrder cfg.SKIP_ROOT_GPN x.syncState.gpn y.syncState.gpn calls := by
  induction h with
  | refl x => exact ⟨.refl _, fun _ => Or.inl, by simp, .nil⟩
  | call follows rest ih =>
      have hstep := calls_generate hbatch hx
      rw [hclear.discoverAll] at hstep
      have hrest := ih (Reads.known hbatch hx follows) ((hclear.calls hstep).follows follows)
      rw [follows.syncState] at hrest
      exact .cons hstep.names hrest

/-- A call that asks for nothing leaves nothing to be asked for, but the root where it is
skipped. -/
theorem Reads.ended {cfg : ReadConfig} (hbatch : 0 < cfg.GPV_BATCH_SIZE) {x y : ReadState}
    {calls : List (DeviceData × Option ReadRequest)} (h : Reads cfg x calls y) (hx : x.Known)
    (hnone : ∃ call ∈ calls, call.2 = none) :
    y.syncState.refreshAttributes .value = [] ∧ y.attributeQueue = []
      ∧ ∀ p ∈ y.syncState.gpn, p = [] ∧ cfg.SKIP_ROOT_GPN = true := by
  induction h with
  | refl x => simp at hnone
  | @call x x' y calls follows rest ih =>
      have hstep := calls_generate hbatch hx
      have hx' := Reads.known hbatch hx follows
      obtain ⟨call, hcall, hnone⟩ := hnone
      rcases List.mem_cons.mp hcall with rfl | hcall
      · obtain ⟨hvalue, hqueue⟩ := hstep.ended hnone
        have hgpn := hstep.names.rest
          (by simp [show (generateGetRpcRequest cfg x).2 = none from hnone])
        rw [← follows.syncState] at hvalue hgpn
        rw [← follows.attributeQueue] at hqueue
        have hclear := ((discovered_discoverAll x).calls hstep).follows follows
        refine ⟨(rest.values hbatch hx').left_nil hvalue,
          (rest.attributes hbatch hx').left_nil hqueue, fun p hp => ?_⟩
        have hnot := hgpn p ((rest.names hbatch hx' hclear).sublist.subset hp)
        rw [MayRead, not_or, not_not, Bool.not_eq_false] at hnot
        exact hnot
      · exact ih hx' ⟨call, hcall, hnone⟩

theorem Reads.lengths {cfg : ReadConfig} (hbatch : 0 < cfg.GPV_BATCH_SIZE) {x y : ReadState}
    {calls : List (DeviceData × Option ReadRequest)} (h : Reads cfg x calls y) (hx : x.Known) :
    ∀ call ∈ calls, (valuePaths call.2).length ≤ max 1 ⌈cfg.GPV_BATCH_SIZE⌉₊
      ∧ (attributePaths call.2).length ≤ max 1 ⌈cfg.GPV_BATCH_SIZE⌉₊ := by
  induction h with
  | refl x => simp
  | call follows rest ih =>
      have hstep := calls_generate hbatch hx
      exact List.forall_mem_cons.mpr
        ⟨⟨hstep.values_length, hstep.attributes_length⟩, ih (Reads.known hbatch hx follows)⟩

theorem ReadsNames.congr {cfg : ReadConfig} {d d' : DeviceData} {gpn left : List Path}
    {r : Option ReadRequest} (h : ReadsNames cfg d gpn left r) (hd : isKnown d = isKnown d') :
    ReadsNames cfg d' gpn left r where
  sublist := h.sublist
  dropped := hd ▸ h.dropped
  found := hd ▸ h.found
  rest := h.rest

theorem Reads.inOrder {cfg : ReadConfig} (hbatch : 0 < cfg.GPV_BATCH_SIZE) {x y : ReadState}
    {calls : List (DeviceData × Option ReadRequest)} (h : Reads cfg x calls y) (hx : x.Known)
    (hne : calls ≠ []) :
    ReadsInOrder cfg.SKIP_ROOT_GPN x.discoverAll.syncState.gpn y.syncState.gpn calls := by
  cases h with
  | refl => exact absurd rfl hne
  | call follows rest =>
      have hstep := calls_generate hbatch hx
      have hclear := ((discovered_discoverAll x).calls hstep).follows follows
      have hrest := rest.names hbatch (Reads.known hbatch hx follows) hclear
      rw [follows.syncState] at hrest
      exact .cons (hstep.names.congr (isKnown_discoverAll hx)) hrest

/-- The read phase. Every request takes paths from the sets, so that there are only so many of
them. The values and the attributes are asked for in the order of their sets, each once, and
just those of the parameters that have them when their turn comes; so are the names, parents
first. -/
theorem Reads.reads_exact {cfg : ReadConfig} (hbatch : 0 < cfg.GPV_BATCH_SIZE) {x y : ReadState}
    {calls : List (DeviceData × Option ReadRequest)} (h : Reads cfg x calls y) (hx : x.Known)
    (hne : calls ≠ []) :
    (calls.filterMap Prod.snd).length + y.pending ≤ x.pending
      ∧ TakesAll (fun d => Option.guard (isLeaf d)) valuePaths
        (x.syncState.refreshAttributes .value) (y.syncState.refreshAttributes .value) calls
      ∧ TakesAll (fun d => Option.guard (isKnown d)) attributePaths x.attributeQueue
        y.attributeQueue calls
      ∧ ReadsInOrder cfg.SKIP_ROOT_GPN x.discoverAll.syncState.gpn y.syncState.gpn calls
      ∧ ((∃ call ∈ calls, call.2 = none) →
        y.syncState.refreshAttributes .value = [] ∧ y.attributeQueue = []
          ∧ ∀ p ∈ y.syncState.gpn, p = [] ∧ cfg.SKIP_ROOT_GPN = true)
      ∧ ∀ call ∈ calls, (valuePaths call.2).length ≤ max 1 ⌈cfg.GPV_BATCH_SIZE⌉₊
        ∧ (attributePaths call.2).length ≤ max 1 ⌈cfg.GPV_BATCH_SIZE⌉₊ :=
  ⟨h.pending_le hbatch hx, h.values hbatch hx, h.attributes hbatch hx, h.inOrder hbatch hx hne,
    h.ended hbatch hx, h.lengths hbatch hx⟩

/-- The sets of a new session. -/
def newSyncState : SyncSets where
  refreshAttributes _ := []
  exist := []
  spv := .empty
  spa := .empty
  gpn := []
  gpnPatterns := .empty
  tags := .empty
  downloadsValues := .empty
  downloadsDownload := .empty
  reboot := .ofRat 0
  factoryReset := .ofRat 0
  virtualParameterDeclarations := []

/-- A device of which only one parameter is known, with its value to be read and its
notification to be found. -/
def oneLeaf : ReadState where
  deviceData := { initDeviceData with
    attributes := InsMap.empty.set [js "Uptime"] fun a =>
      if a = .object then some (1, .num 0) else none }
  syncState := { newSyncState with
    refreshAttributes := fun a => if a = .value then [[js "Uptime"]] else [] }

theorem known_oneLeaf : oneLeaf.Known where
  gpn_nodup := .nil
  gpn := by simp [oneLeaf, newSyncState]
  exist := by simp [oneLeaf, newSyncState]
  refresh a p hp := by
    cases a <;> simp [oneLeaf] at hp
    simp [hp]
  refresh_nodup a := by cases a <;> simp [oneLeaf]

theorem reads_oneLeaf : ∃ y, Reads {} oneLeaf
    [(oneLeaf.deviceData, some (.values [[js "Uptime"]])), (oneLeaf.deviceData, none)] y :=
  ⟨_, .call ⟨rfl, fun _ h => h⟩ (.call ⟨rfl, fun _ h => h⟩ (.refl _))⟩

theorem Reads.reads_exact_oneLeaf : ∃ y : ReadState,
    TakesAll (fun d => Option.guard (isLeaf d)) valuePaths [[js "Uptime"]]
      (y.syncState.refreshAttributes .value)
      [(oneLeaf.deviceData, some (.values [[js "Uptime"]])), (oneLeaf.deviceData, none)] := by
  obtain ⟨y, h⟩ := reads_oneLeaf
  exact ⟨y, (Reads.reads_exact (by decide) h known_oneLeaf (by simp)).2.1⟩

/-! ## Nothing is forgotten -/

theorem atOrBelow_trans {p q r : Path} (hq : q.length ≤ 32) (h : AtOrBelow p q)
    (h' : AtOrBelow q r) : AtOrBelow p r := by
  refine ⟨h.1.trans h'.1, fun i hi => ?_⟩
  have hiq : i < q.length := hi.trans_le h.1
  rcases h.2 i hi with hwild | heq | ⟨hfalse, -⟩
  · exact Or.inl hwild
  · rcases h'.2 i hiq with ⟨hwild, -⟩ | heq' | ⟨hfalse, -⟩
    · have hstar : p[i]? = some star := by
        rw [← (Path.test_wildcard_iff hq hiq).mp hwild, heq]
        simp [hi]
      exact Or.inl ⟨Path.test_wildcard hstar, rfl⟩
    · refine Or.inr (Or.inl ?_)
      rw [heq', ← heq]
      simp [hiq]
    · exact absurd hfalse Bool.false_ne_true
  · exact absurd hfalse Bool.false_ne_true

theorem foldl_keep {P : ReadState → Prop} {f : ReadState → Path → ReadState}
    (hkeep : ∀ x q, P x → P (f x q)) (set : List Path) {x : ReadState} (h : P x) :
    P (set.foldl f x) := by
  induction set generalizing x with
  | nil => exact h
  | cons q set ih => exact ih (hkeep x q h)

/-- What a loop does for each path, if the turns after it keep it. -/
theorem foldl_each {P : ReadState → Path → Prop} {f : ReadState → Path → ReadState}
    (hkeep : ∀ x q p, P x p → P (f x q) p) (heach : ∀ x p, P (f x p) p) {set : List Path}
    {p : Path} (hp : p ∈ set) (x : ReadState) : P (set.foldl f x) p := by
  induction set generalizing x with
  | nil => exact absurd hp List.not_mem_nil
  | cons q set ih =>
      rw [List.foldl_cons]
      rcases List.mem_cons.mp hp with rfl | hp
      · exact foldl_keep (P := (P · p)) (fun x q => hkeep x q p) set (heach x p)
      · exact ih hp _

/-- The names are to be read above the path, or another path at or below it is in a set. -/
def Found (among : ReadState → Path → Path → Prop) (x : ReadState) (p : Path) : Prop :=
  p.dropLast ∈ x.syncState.gpn ∨ ∃ q, AtOrBelow p q ∧ among x p q

theorem dropLast_mem_discover (x : ReadState) (p : Path) :
    p.dropLast ∈ (x.discover p).syncState.gpn := mem_addPath.mpr (Or.inr rfl)

theorem gpn_mem_discover {x : ReadState} {q : Path} (p : Path) (h : q ∈ x.syncState.gpn) :
    q ∈ (x.discover p).syncState.gpn := mem_addPath.mpr (Or.inl h)

theorem gpn_mem_discoverObject {x : ReadState} {q : Path} (p : Path)
    (h : q ∈ x.syncState.gpn) : q ∈ (x.discoverObject p).syncState.gpn := by
  rw [discoverObject]
  split_ifs
  · exact h
  · exact gpn_mem_discover p h

theorem gpn_mem_discoverWritables {x : ReadState} {q : Path} (h : q ∈ x.syncState.gpn) :
    q ∈ x.discoverWritables.syncState.gpn :=
  foldl_keep (P := (q ∈ ·.syncState.gpn)) (f := discover) (fun _ p => gpn_mem_discover p) _ h

theorem gpn_mem_discoverObjects {x : ReadState} {q : Path} (h : q ∈ x.syncState.gpn) :
    q ∈ x.discoverObjects.syncState.gpn :=
  foldl_keep (P := (q ∈ ·.syncState.gpn)) (f := discoverObject)
    (fun _ p => gpn_mem_discoverObject p) _ h

/-- What the path is found by in the loop over `exist`. -/
def AmongAll (x : ReadState) (_ q : Path) : Prop :=
  q ∈ x.syncState.gpn ∨ ∃ a, q ∈ x.syncState.refreshAttributes a

/-- What the path is found by in the loop over `object`. -/
def AmongBelow (x : ReadState) (p q : Path) : Prop :=
  q ∈ x.syncState.refreshAttributes .value
    ∨ (p.length < q.length ∧ ∃ a, q ∈ x.syncState.refreshAttributes a)

theorem found_discoverExists {x : ReadState} {p : Path} (hp : p ∈ x.syncState.exist) :
    Found AmongAll x.discoverExists p := by
  refine foldl_each (P := Found AmongAll) (f := discoverExist) (fun x q p h => ?_)
    (fun x p => ?_) hp x
  · rw [discoverExist]
    split_ifs
    · exact h
    · exact h.imp (gpn_mem_discover q) fun ⟨r, hr, hamong⟩ =>
        ⟨r, hr, hamong.imp_left (gpn_mem_discover q)⟩
  · rw [discoverExist]
    split_ifs with hfound
    · obtain ⟨q, hq, hamong⟩ := List.any_eq_true.mp hfound
      refine Or.inr ⟨q, (mem_below.mp hq).2.2, ?_⟩
      rcases (Bool.or_eq_true _ _).mp hamong with hany | hgpn
      · obtain ⟨a, -, ha⟩ := List.any_eq_true.mp hany
        exact Or.inr ⟨a, of_decide_eq_true ha⟩
      · exact Or.inl (of_decide_eq_true hgpn)
    · exact Or.inl (dropLast_mem_discover x p)

theorem found_discoverObjects {x : ReadState} {p : Path}
    (hp : p ∈ x.syncState.refreshAttributes .object) :
    Found AmongBelow ((x.syncState.refreshAttributes .object).foldl discoverObject x) p := by
  refine foldl_each (P := Found AmongBelow) (f := discoverObject) (fun x q p h => ?_)
    (fun x p => ?_) hp x
  · rw [discoverObject]
    split_ifs
    · exact h
    · exact h.imp_left (gpn_mem_discover q)
  · rw [discoverObject]
    split_ifs with hfound
    · obtain ⟨q, hq, hamong⟩ := List.any_eq_true.mp hfound
      refine Or.inr ⟨q, (mem_below.mp hq).2.2, ?_⟩
      rcases (Bool.or_eq_true _ _).mp hamong with hvalue | hbelow
      · exact Or.inl (of_decide_eq_true hvalue)
      · obtain ⟨hlength, hany⟩ := (Bool.and_eq_true _ _).mp hbelow
        obtain ⟨a, -, ha⟩ := List.any_eq_true.mp hany
        exact Or.inr ⟨of_decide_eq_true hlength, a, of_decide_eq_true ha⟩
    · exact Or.inl (dropLast_mem_discover x p)

theorem found_discoverWritables {x : ReadState} {p : Path}
    (hp : p ∈ x.syncState.refreshAttributes .writable) :
    p.dropLast ∈ x.discoverWritables.syncState.gpn :=
  foldl_each (P := fun x p => p.dropLast ∈ x.syncState.gpn) (f := discover)
    (fun _ q _ h => gpn_mem_discover q h) (fun x p => dropLast_mem_discover x p) hp x

/-- What the calls are to ask for tells about the path. -/
def Planned (x : ReadState) (p : Path) : Prop :=
  p.dropLast ∈ x.syncState.gpn ∨ ∃ q, AtOrBelow p q ∧ (q ∈ x.syncState.gpn
    ∨ q.dropLast ∈ x.syncState.gpn ∨ q ∈ x.syncState.refreshAttributes .value
    ∨ q ∈ x.attributeQueue)

theorem Planned.of_below {x : ReadState} {p q : Path} (hq : q.length ≤ 32) (h : AtOrBelow p q)
    (hplanned : Planned x q) : Planned x p := by
  refine Or.inr ?_
  rcases hplanned with hparent | ⟨r, hr, hplanned⟩
  · exact ⟨q, h, Or.inr (Or.inl hparent)⟩
  · exact ⟨r, atOrBelow_trans hq h hr, hplanned⟩

theorem mem_attributeQueue {x : ReadState} {p : Path} : p ∈ x.attributeQueue ↔
    p ∈ x.syncState.refreshAttributes .notification
      ∨ p ∈ x.syncState.refreshAttributes .accessList := by
  simp only [attributeQueue, List.mem_append, List.mem_filter, decide_eq_true_eq]
  tauto

/-- The paths of the sets are short enough for the wildcard masks. -/
structure Short (x : ReadState) : Prop where
  exist : ∀ p ∈ x.syncState.exist, p.length ≤ 32
  refresh : ∀ a, ∀ p ∈ x.syncState.refreshAttributes a, p.length ≤ 32

theorem planned_writable {x : ReadState} {p : Path}
    (hp : p ∈ x.syncState.refreshAttributes .writable) : Planned x.discoverAll p := by
  refine Or.inl (found_discoverWritables (x := x.discoverExists.discoverObjects) ?_)
  simpa using hp

theorem planned_other {x : ReadState} {a : AttrName} {p : Path} (hobject : a ≠ .object)
    (hp : p ∈ x.syncState.refreshAttributes a) : Planned x.discoverAll p := by
  by_cases hwritable : a = .writable
  · subst hwritable
    exact planned_writable hp
  · refine Or.inr ⟨p, atOrBelow_self p, Or.inr (Or.inr ?_)⟩
    rw [← refresh_discoverAll hobject hwritable] at hp
    cases a with
    | object => exact absurd rfl hobject
    | writable => exact absurd rfl hwritable
    | value => exact Or.inl hp
    | notification => exact Or.inr (mem_attributeQueue.mpr (Or.inl hp))
    | accessList => exact Or.inr (mem_attributeQueue.mpr (Or.inr hp))

/-- A path that is found by a longer one is planned because that one is. -/
theorem planned_object {x : ReadState} (hx : x.Short) (n : Nat) {p : Path}
    (hp : p ∈ x.syncState.refreshAttributes .object) (hn : 32 - p.length = n) :
    Planned x.discoverAll p := by
  induction n using Nat.strong_induction_on generalizing p with
  | h n ih =>
      have hset := discoverExists_refreshAttributes x
      have hframe := foldl_frame (f := discoverObject) (·.syncState.refreshAttributes)
        (fun x path => (discoverObject_syncState x path).2)
        (x.discoverExists.syncState.refreshAttributes .object) x.discoverExists
      rcases found_discoverObjects (x := x.discoverExists) (hset ▸ hp) with
        hparent | ⟨q, hq, hvalue | ⟨hlonger, a, ha⟩⟩
      · exact Or.inl (gpn_mem_discoverWritables hparent)
      · rw [hframe, hset] at hvalue
        exact (planned_other (by decide) hvalue).of_below (hx.refresh .value q hvalue) hq
      · rw [hframe, hset] at ha
        have hlength := hx.refresh a q ha
        refine Planned.of_below hlength hq ?_
        by_cases hobject : a = .object
        · subst hobject
          exact ih (32 - q.length) (by omega) ha rfl
        · exact planned_other hobject ha

theorem planned_refresh {x : ReadState} (hx : x.Short) {a : AttrName} {p : Path}
    (hp : p ∈ x.syncState.refreshAttributes a) : Planned x.discoverAll p := by
  by_cases hobject : a = .object
  · subst hobject
    exact planned_object hx _ hp rfl
  · exact planned_other hobject hp

/-- What is to be found is planned once the sets are cleared. -/
theorem planned_discoverAll {x : ReadState} (hx : x.Short) {p : Path}
    (hp : p ∈ x.syncState.exist ∨ ∃ a, p ∈ x.syncState.refreshAttributes a) :
    Planned x.discoverAll p := by
  rcases hp with hexist | ⟨a, ha⟩
  · rcases found_discoverExists hexist with hparent | ⟨q, hq, hgpn | ⟨a, ha⟩⟩
    · exact Or.inl (gpn_mem_discoverWritables (gpn_mem_discoverObjects hparent))
    · exact Or.inr ⟨q, hq, Or.inl (gpn_mem_discoverWritables (gpn_mem_discoverObjects hgpn))⟩
    · rw [discoverExists_refreshAttributes] at ha
      exact (planned_refresh hx ha).of_below (hx.refresh a q ha) hq
  · exact planned_refresh hx ha

/-- The names, the value or the attributes of the path are asked for, unless it is gone or no
leaf when its turn comes, or is the root that is skipped. -/
def Told (cfg : ReadConfig) (x : ReadState) (calls : List (DeviceData × Option ReadRequest))
    (p : Path) : Prop :=
  (p = [] ∧ cfg.SKIP_ROOT_GPN = true) ∨ NamesRead p calls
    ∨ (p ∈ x.syncState.refreshAttributes .value
      ∧ ∃ call ∈ calls, isLeaf call.1 p = true → p ∈ valuePaths call.2)
    ∨ (p ∈ x.attributeQueue
      ∧ ∃ call ∈ calls, isKnown call.1 p = true → p ∈ attributePaths call.2)

theorem turn_guard {wanted : DeviceData → Path → Bool}
    {requested : Option ReadRequest → List Path} {p : Path}
    {calls : List (DeviceData × Option ReadRequest)}
    (h : ∃ call ∈ calls, ∀ q ∈ Option.guard (wanted call.1) p, q ∈ requested call.2) :
    ∃ call ∈ calls, wanted call.1 p = true → p ∈ requested call.2 := by
  obtain ⟨call, hcall, h⟩ := h
  exact ⟨call, hcall, fun hwanted => h p (by simp [Option.guard, hwanted])⟩

/-- Nothing that is to be found is forgotten: in a phase that has ended, its parent, or a path
at or below it, or the parent of one, has had its turn. -/
theorem Reads.told {cfg : ReadConfig} (hbatch : 0 < cfg.GPV_BATCH_SIZE) {x y : ReadState}
    {calls : List (DeviceData × Option ReadRequest)} (h : Reads cfg x calls y) (hx : x.Known)
    (hshort : x.Short) (hnone : ∃ call ∈ calls, call.2 = none) {p : Path}
    (hp : p ∈ x.syncState.exist ∨ ∃ a, p ∈ x.syncState.refreshAttributes a) :
    Told cfg x calls p.dropLast
      ∨ ∃ q, AtOrBelow p q ∧ (Told cfg x calls q ∨ Told cfg x calls q.dropLast) := by
  have hne : calls ≠ [] := by
    obtain ⟨call, hcall, -⟩ := hnone
    exact List.ne_nil_of_mem hcall
  obtain ⟨hvalue, hqueue, hroot⟩ := h.ended hbatch hx hnone
  have hgpn : ∀ q ∈ x.discoverAll.syncState.gpn, Told cfg x calls q := fun q hq =>
    ((h.inOrder hbatch hx hne).read q hq).elim (fun hleft => Or.inl (hroot q hleft))
      fun hread => Or.inr (Or.inl hread)
  rcases planned_discoverAll hshort hp with hparent | ⟨q, hq, hmem | hmem | hmem | hmem⟩
  · exact Or.inl (hgpn _ hparent)
  · exact Or.inr ⟨q, hq, Or.inl (hgpn q hmem)⟩
  · exact Or.inr ⟨q, hq, Or.inr (hgpn _ hmem)⟩
  · rw [refresh_discoverAll (by decide) (by decide)] at hmem
    exact Or.inr ⟨q, hq, Or.inl (Or.inr (Or.inr (Or.inl
      ⟨hmem, turn_guard ((h.values hbatch hx).mem hmem hvalue)⟩)))⟩
  · rw [attributeQueue_discoverAll] at hmem
    exact Or.inr ⟨q, hq, Or.inl (Or.inr (Or.inr (Or.inr
      ⟨hmem, turn_guard ((h.attributes hbatch hx).mem hmem hqueue)⟩)))⟩

theorem Reads.told_oneLeaf : ∃ calls, Told {} oneLeaf calls []
    ∨ ∃ q, AtOrBelow [js "Uptime"] q
      ∧ (Told {} oneLeaf calls q ∨ Told {} oneLeaf calls q.dropLast) := by
  obtain ⟨y, h⟩ := reads_oneLeaf
  have hshort : oneLeaf.Short := ⟨by simp [oneLeaf, newSyncState], fun a p hp => by
    cases a <;> simp [oneLeaf] at hp
    simp [hp]⟩
  exact ⟨_, Reads.told (p := [js "Uptime"]) (by decide) h known_oneLeaf hshort
    ⟨_, List.mem_cons_of_mem _ List.mem_cons_self, rfl⟩ (Or.inr ⟨.value, List.mem_cons_self⟩)⟩

end ReadState

end GenieAcs
