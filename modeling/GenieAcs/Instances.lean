import Mathlib.Data.List.Lex
import Mathlib.Data.List.Sort
import GenieAcs.PathSet

/-!
# Planned instances

A declaration of a number of instances below a parent adds to what is planned
to be created and deleted there. `processInstances` counts the instances that
exist, the planned creations that have all the keys, and those that can be given
the keys they lack; it drops, specialises and adds creations on the way.
-/

namespace GenieAcs

/-! ## Sets of instances -/

/-- The keys of an instance with their values. -/
abbrev InstanceKeys := InsMap JsString JsString

namespace InstanceKeys

/-- `inst` has all the keys of `keys`, with the same values. -/
def Has (inst keys : InstanceKeys) : Bool := keys.entries.all fun kv => inst.get? kv.1 = some kv.2

def size (inst : InstanceKeys) : Nat := inst.entries.length

def sortedEntries (inst : InstanceKeys) : List (JsString × JsString) :=
  inst.entries.insertionSort fun a b => a.1 ≤ b.1

/-- The loop of the comparison over the sorted keys. -/
def compareEntries : List (JsString × JsString) → List (JsString × JsString) → Ordering
  | (k, v) :: a, (k', v') :: b =>
      if k' < k then .gt else if k < k' then .lt
      else if v' < v then .gt else if v < v' then .lt
      else compareEntries a b
  | _, _ => .eq

/-- Fewer keys first, then by the keys and values. -/
def notAfter (a b : InstanceKeys) : Prop :=
  if a.size ≠ b.size then a.size < b.size
  else compareEntries a.sortedEntries b.sortedEntries ≠ .gt

/-- More keys first, then by the keys and values. -/
def notBefore (a b : InstanceKeys) : Prop :=
  if a.size ≠ b.size then b.size < a.size
  else compareEntries a.sortedEntries b.sortedEntries ≠ .gt

instance : DecidableRel notAfter := fun a b =>
  inferInstanceAs (Decidable (if a.size ≠ b.size then a.size < b.size
    else compareEntries a.sortedEntries b.sortedEntries ≠ .gt))

instance : DecidableRel notBefore := fun a b =>
  inferInstanceAs (Decidable (if a.size ≠ b.size then b.size < a.size
    else compareEntries a.sortedEntries b.sortedEntries ≠ .gt))

end InstanceKeys

/-- A set of instances, which are objects: each has an identity besides its
keys. -/
structure InstanceSet where
  set : List (Nat × InstanceKeys)
  next : Nat
  fresh : ∀ inst ∈ set, inst.1 < next
  nodup : (set.map Prod.fst).Nodup

namespace InstanceSet

def empty : InstanceSet where
  set := []
  next := 0
  fresh _ h := nomatch h
  nodup := List.nodup_nil

/-- `add` of a new object. -/
def add (s : InstanceSet) (inst : InstanceKeys) : InstanceSet where
  set := s.set ++ [(s.next, inst)]
  next := s.next + 1
  fresh := by
    intro i hi
    rcases List.mem_append.mp hi with hmem | hmem
    · exact Nat.lt_succ_of_lt (s.fresh i hmem)
    · rw [List.mem_singleton.mp hmem]
      exact Nat.lt_succ_self s.next
  nodup := by
    rw [List.map_append]
    refine s.nodup.append (List.nodup_singleton _) (List.disjoint_singleton.mpr fun hmem => ?_)
    obtain ⟨i, hi, heq⟩ := List.mem_map.mp hmem
    exact absurd (s.fresh i hi) (heq ▸ Nat.lt_irrefl s.next)

def delete (s : InstanceSet) (id : Nat) : InstanceSet where
  set := s.set.filter fun inst => inst.1 ≠ id
  next := s.next
  fresh i hi := s.fresh i (List.mem_of_mem_filter hi)
  nodup := s.nodup.sublist (List.filter_sublist.map _)

/-- The instances with the keys, those with the most keys first. -/
def superset (s : InstanceSet) (keys : InstanceKeys) : List (Nat × InstanceKeys) :=
  (s.set.filter fun inst => inst.2.Has keys).insertionSort fun a b => a.2.notBefore b.2

/-- The instances with no other keys, those with the fewest first. -/
def subset (s : InstanceSet) (keys : InstanceKeys) : List (Nat × InstanceKeys) :=
  (s.set.filter fun inst => keys.Has inst.2).insertionSort fun a b => a.2.notAfter b.2

end InstanceSet

/-! ## `processInstances` -/

/-- What is planned below a parent. -/
structure Plan where
  toCreate : InstanceSet
  toDelete : List Path

/-- The plans of a session. -/
structure SyncState where
  instancesToDelete : InsMap Path (List Path)
  instancesToCreate : InsMap Path InstanceSet
  downloadsToDelete : List Path
  downloadsToCreate : InstanceSet

def isDownloads (parent : Path) : Bool := parent.head? = some (js "Downloads")

namespace SyncState

def plan (st : SyncState) (parent : Path) : Plan :=
  if isDownloads parent then ⟨st.downloadsToCreate, st.downloadsToDelete⟩
  else ⟨(st.instancesToCreate.get? parent).getD .empty, (st.instancesToDelete.get? parent).getD []⟩

def setPlan (st : SyncState) (parent : Path) (p : Plan) : SyncState :=
  if isDownloads parent then
    { st with downloadsToCreate := p.toCreate, downloadsToDelete := p.toDelete }
  else
    { st with
      instancesToCreate := st.instancesToCreate.set parent p.toCreate
      instancesToDelete := st.instancesToDelete.set parent p.toDelete }

theorem plan_setPlan (st : SyncState) (parent : Path) (p : Plan) :
    (st.setPlan parent p).plan parent = p := by
  rw [plan, setPlan]
  by_cases h : isDownloads parent = true
  · rw [if_pos h, if_pos h]
  · rw [if_neg h, if_neg h]
    simp only [InsMap.get?_set_self, Option.getD_some]

end SyncState

section

variable (keys : InstanceKeys) (minInstances maxInstances : Nat)

/-- What becomes of an instance that exists when it is counted. -/
def countInstance (counter : Nat) (p : Path) (toDelete : List Path) : List Path :=
  if maxInstances < counter then if p ∈ toDelete then toDelete else toDelete ++ [p]
  else if counter ≤ minInstances then toDelete.filter (· ≠ p)
  else toDelete

/-- The loop over the instances that exist. -/
def countExisting : List Path → Nat → List Path → Nat × List Path
  | [], counter, toDelete => (counter, toDelete)
  | p :: parameters, counter, toDelete =>
      countExisting parameters (counter + 1)
        (countInstance minInstances maxInstances (counter + 1) p toDelete)

/-- The loop over the creations with the keys. -/
def countSupersets : List (Nat × InstanceKeys) → Nat → InstanceSet → Nat × InstanceSet
  | [], counter, toCreate => (counter, toCreate)
  | inst :: found, counter, toCreate =>
      countSupersets found (counter + 1)
        (if maxInstances < counter + 1 then toCreate.delete inst.1 else toCreate)

/-- The loop over the creations that can be given the keys. -/
def countSubsets : List (Nat × InstanceKeys) → Nat → InstanceSet → Nat × InstanceSet
  | [], counter, toCreate => (counter, toCreate)
  | inst :: found, counter, toCreate =>
      countSubsets found (counter + 1)
        (if counter + 1 ≤ minInstances then (toCreate.delete inst.1).add keys else toCreate)

/-- `n` creations with the keys. -/
def addInstances : Nat → InstanceSet → InstanceSet
  | 0, toCreate => toCreate
  | n + 1, toCreate => addInstances n (toCreate.add keys)

def planCreations (counter : Nat) (toCreate : InstanceSet) : InstanceSet :=
  let (counter, toCreate) := countSupersets maxInstances (toCreate.superset keys) counter toCreate
  let (counter, toCreate) :=
    countSubsets keys minInstances (toCreate.subset keys) counter toCreate
  addInstances keys (minInstances - counter) toCreate

end

/-- The parent is interned; `keys` is `none` if a particular instance is
declared. -/
def processInstances (paths : PathSet) (st : SyncState) (parent : Path) (parameters : List Path)
    (keys : Option InstanceKeys) (minInstances maxInstances : Nat) (defer : Bool) :
    PathSet × SyncState :=
  let paths := paths.add parent
  if isDownloads parent ∧ parent.length ≠ 1 then (paths, st)
  else
    let p := st.plan parent
    if defer ∧ p.toCreate.set = [] ∧ p.toDelete = [] then (paths, st.setPlan parent p)
    else
      let (counter, toDelete) :=
        countExisting minInstances maxInstances parameters 0 p.toDelete
      let toCreate := match keys with
        | none => p.toCreate
        | some keys => planCreations keys minInstances maxInstances counter p.toCreate
      (paths, st.setPlan parent ⟨toCreate, toDelete⟩)

/-! ## What a plan amounts to -/

/-- The instances there will be: those that exist and stay, and those that are
created with the keys. -/
def Plan.instances (p : Plan) (parameters : List Path) (keys : InstanceKeys) : Nat :=
  parameters.countP (fun q => q ∉ p.toDelete) + p.toCreate.set.countP fun inst => inst.2.Has keys

namespace InstanceKeys

variable {inst keys : InstanceKeys}

theorem has_iff : inst.Has keys = true ↔ keys.entries ⊆ inst.entries := by
  rw [Has, List.all_eq_true]
  refine forall₂_congr fun kv _ => ?_
  rw [decide_eq_true_eq, InsMap.get?_eq_some]

theorem has_self : keys.Has keys = true := has_iff.mpr (List.Subset.refl _)

theorem size_le_of_has (h : inst.Has keys = true) : keys.size ≤ inst.size :=
  (keys.nodup.of_map.subperm (has_iff.mp h)).length_le

/-- An instance without other keys has all of them if it has as many. -/
theorem has_iff_size (h : keys.Has inst = true) :
    inst.Has keys = true ↔ ¬ inst.size < keys.size := by
  constructor
  · exact fun hkeys => Nat.not_lt.mpr (size_le_of_has hkeys)
  · intro hsize
    have hperm := (inst.nodup.of_map.subperm (has_iff.mp h)).perm_of_length_le
      (Nat.not_lt.mp hsize)
    exact has_iff.mpr hperm.symm.subset

theorem notAfter_size {a b : InstanceKeys} (h : a.notAfter b) : a.size ≤ b.size := by
  rw [notAfter] at h
  split_ifs at h with hne
  · exact Nat.le_of_lt h
  · exact Nat.le_of_eq (not_not.mp hne)

theorem size_of_not_notAfter {a b : InstanceKeys} (h : ¬ a.notAfter b) : b.size ≤ a.size := by
  rw [notAfter] at h
  split_ifs at h with hne
  · exact Nat.not_lt.mp h
  · exact Nat.le_of_eq (not_not.mp hne).symm

end InstanceKeys

section Sorting

variable {α : Type} {r : α → α → Prop} [DecidableRel r] {f : α → Nat}

/-- A comparison that goes by a measure first sorts by it. -/
theorem insertionSort_measure (hr : ∀ a b, r a b → f a ≤ f b) (hr' : ∀ a b, ¬ r a b → f b ≤ f a)
    (l : List α) : (l.insertionSort r).Pairwise fun a b => f a ≤ f b := by
  have hinsert : ∀ (a : α) (l : List α), l.Pairwise (fun a b => f a ≤ f b) →
      (l.orderedInsert r a).Pairwise fun a b => f a ≤ f b := by
    intro a l
    induction l with
    | nil => exact fun _ => List.pairwise_singleton _ _
    | cons b l ih =>
        intro h
        obtain ⟨hb, hl⟩ := List.pairwise_cons.mp h
        rw [List.orderedInsert_cons]
        split_ifs with hab
        · refine List.pairwise_cons.mpr ⟨fun c hc => ?_, h⟩
          rcases List.mem_cons.mp hc with rfl | hc
          · exact hr a c hab
          · exact (hr a b hab).trans (hb c hc)
        · refine List.pairwise_cons.mpr ⟨fun c hc => ?_, ih hl⟩
          rcases List.mem_cons.mp ((List.perm_orderedInsert r a l).mem_iff.mp hc) with rfl | hc
          · exact hr' c b hab
          · exact hb c hc
  induction l with
  | nil => exact List.Pairwise.nil
  | cons a l ih => exact hinsert a _ ih

/-- Of a sorted list the elements with a small measure come first. -/
theorem countP_take_sorted {p : α → Bool} {k : Nat} {l : List α}
    (hsorted : l.Pairwise fun a b => f a ≤ f b) (hp : ∀ a ∈ l, p a = true ↔ f a < k) (n : Nat) :
    (l.take n).countP p = min n (l.countP p) := by
  induction l generalizing n with
  | nil => simp
  | cons a l ih =>
      obtain ⟨ha, hl⟩ := List.pairwise_cons.mp hsorted
      have hpa := hp a (List.mem_cons_self ..)
      have hpl : ∀ b ∈ l, p b = true ↔ f b < k := fun b hb => hp b (List.mem_cons_of_mem _ hb)
      cases n with
      | zero => simp
      | succ n =>
          rw [List.take_succ_cons]
          by_cases hsmall : p a = true
          · rw [List.countP_cons_of_pos hsmall, List.countP_cons_of_pos hsmall, ih hl hpl]
            omega
          · have hnone : ∀ b ∈ a :: l, ¬ p b = true := by
              intro b hb
              rcases List.mem_cons.mp hb with rfl | hb
              · exact hsmall
              · rw [hpl b hb]
                have hle := ha b hb
                have hge := mt hpa.mpr hsmall
                omega
            rw [← List.take_succ_cons, List.countP_eq_zero.mpr hnone,
              List.countP_eq_zero.mpr fun b hb => hnone b (List.mem_of_mem_take hb)]
            omega

end Sorting

namespace InstanceSet

variable {s : InstanceSet} {keys : InstanceKeys} {p : Nat × InstanceKeys → Bool}

theorem countP_add : (s.add keys).set.countP p = s.set.countP p + [(s.next, keys)].countP p :=
  List.countP_append

theorem countP_delete {inst : Nat × InstanceKeys} (h : inst ∈ s.set) :
    (s.delete inst.1).set.countP p + [inst].countP p = s.set.countP p := by
  have hnodup := s.nodup
  show (s.set.filter fun i => i.1 ≠ inst.1).countP p + _ = _
  generalize s.set = l at h hnodup
  induction l with
  | nil => cases h
  | cons i l ih =>
      rw [List.map_cons, List.nodup_cons] at hnodup
      rcases List.mem_cons.mp h with rfl | hmem
      · have hrest : l.filter (fun i => i.1 ≠ inst.1) = l := by
          refine List.filter_eq_self.mpr fun i hi => decide_eq_true fun heq => ?_
          exact hnodup.1 (heq ▸ List.mem_map_of_mem hi)
        rw [List.filter_cons_of_neg (by simp), hrest, Nat.add_comm, ← List.countP_append]
        rfl
      · have hne : i.1 ≠ inst.1 := fun heq => hnodup.1 (heq ▸ List.mem_map_of_mem hmem)
        have ih := ih hmem hnodup.2
        rw [List.filter_cons_of_pos (by simpa using hne)]
        simp only [List.countP_cons] at ih ⊢
        omega

theorem mem_delete {inst i : Nat × InstanceKeys} :
    i ∈ (s.delete inst.1).set ↔ i ∈ s.set ∧ i.1 ≠ inst.1 := by
  show i ∈ s.set.filter _ ↔ _
  rw [List.mem_filter, decide_eq_true_eq]

theorem mem_add_of_mem {i : Nat × InstanceKeys} (h : i ∈ s.set) : i ∈ (s.add keys).set :=
  List.mem_append_left _ h

theorem superset_perm : (s.superset keys).Perm (s.set.filter fun inst => inst.2.Has keys) :=
  List.perm_insertionSort _ _

theorem subset_perm : (s.subset keys).Perm (s.set.filter fun inst => keys.Has inst.2) :=
  List.perm_insertionSort _ _

theorem mem_superset {inst : Nat × InstanceKeys} (h : inst ∈ s.superset keys) :
    inst ∈ s.set ∧ inst.2.Has keys = true :=
  List.mem_filter.mp (superset_perm.mem_iff.mp h)

theorem mem_subset {inst : Nat × InstanceKeys} (h : inst ∈ s.subset keys) :
    inst ∈ s.set ∧ keys.Has inst.2 = true :=
  List.mem_filter.mp (subset_perm.mem_iff.mp h)

theorem superset_nodup : ((s.superset keys).map Prod.fst).Nodup :=
  (superset_perm.map _).nodup_iff.mpr (s.nodup.sublist (List.filter_sublist.map _))

theorem subset_nodup : ((s.subset keys).map Prod.fst).Nodup :=
  (subset_perm.map _).nodup_iff.mpr (s.nodup.sublist (List.filter_sublist.map _))

/-- The creations that have the keys. -/
def supersets (s : InstanceSet) (keys : InstanceKeys) : Nat :=
  s.set.countP fun inst => inst.2.Has keys

/-- The creations that have some of the keys and nothing else. -/
def properSubsets (s : InstanceSet) (keys : InstanceKeys) : Nat :=
  s.set.countP fun inst => keys.Has inst.2 && !inst.2.Has keys

/-- The creations that have the keys and nothing else. -/
def equals (s : InstanceSet) (keys : InstanceKeys) : Nat :=
  s.set.countP fun inst => keys.Has inst.2 && inst.2.Has keys

theorem superset_length : (s.superset keys).length = s.supersets keys := by
  rw [superset_perm.length_eq, supersets, List.countP_eq_length_filter]

theorem subset_length :
    (s.subset keys).length = s.properSubsets keys + s.equals keys := by
  rw [subset_perm.length_eq, properSubsets, equals]
  induction s.set with
  | nil => rfl
  | cons inst l ih =>
      simp only [List.filter_cons, List.countP_cons]
      cases keys.Has inst.2 <;> cases inst.2.Has keys <;> simp <;> omega

/-- The subsets that lack keys come first. -/
theorem subset_take (n : Nat) :
    ((s.subset keys).take n).countP (fun inst => !inst.2.Has keys)
      = min n (s.properSubsets keys) := by
  have hsorted : (s.subset keys).Pairwise fun a b => a.2.size ≤ b.2.size :=
    @insertionSort_measure _ (fun a b : Nat × InstanceKeys => a.2.notAfter b.2) _
      (fun inst => inst.2.size) (fun _ _ => InstanceKeys.notAfter_size)
      (fun _ _ => InstanceKeys.size_of_not_notAfter) _
  rw [countP_take_sorted (k := keys.size) hsorted, subset_perm.countP_eq, List.countP_filter]
  · congr 1
    refine List.countP_congr fun inst _ => ?_
    rw [Bool.and_comm]
  · intro inst hinst
    have hsize := InstanceKeys.has_iff_size (mem_subset hinst).2
    rw [Bool.not_eq_true', ← Bool.not_eq_true, hsize, not_not]

end InstanceSet

/-! ## The loops -/

section Loops

variable {keys : InstanceKeys} {minInstances maxInstances : Nat}

theorem mem_countInstance {counter : Nat} {p q : Path} {toDelete : List Path} (hne : q ≠ p) :
    q ∈ countInstance minInstances maxInstances counter p toDelete ↔ q ∈ toDelete := by
  rw [countInstance]
  split_ifs
  · exact Iff.rfl
  · rw [List.mem_append, List.mem_singleton]
    exact or_iff_left hne
  · rw [List.mem_filter, decide_eq_true_eq]
    exact and_iff_left hne
  · exact Iff.rfl

theorem self_mem_countInstance {counter : Nat} {p : Path} {toDelete : List Path}
    (hle : minInstances ≤ maxInstances) :
    let r := countInstance minInstances maxInstances counter p toDelete
    (maxInstances < counter → p ∈ r) ∧ (counter ≤ minInstances → p ∉ r) := by
  intro r
  constructor
  · intro hmax
    show p ∈ countInstance minInstances maxInstances counter p toDelete
    rw [countInstance, if_pos hmax]
    split_ifs with hmem
    · exact hmem
    · exact List.mem_append_right _ (List.mem_singleton_self p)
  · intro hmin
    show p ∉ countInstance minInstances maxInstances counter p toDelete
    rw [countInstance, if_neg (by omega), if_pos hmin, List.mem_filter]
    simp

/-- The instances that stay: as many as the bounds leave open. -/
theorem countExisting_spec (hle : minInstances ≤ maxInstances) {parameters : List Path}
    (hnodup : parameters.Nodup) (counter : Nat) (toDelete : List Path) :
    let r := countExisting minInstances maxInstances parameters counter toDelete
    let left := parameters.countP fun q => q ∉ r.2
    r.1 = counter + parameters.length ∧ (∀ q, q ∉ parameters → (q ∈ r.2 ↔ q ∈ toDelete))
      ∧ min parameters.length (minInstances - counter) ≤ left
      ∧ left ≤ min parameters.length (maxInstances - counter) := by
  induction parameters generalizing counter toDelete with
  | nil => exact ⟨rfl, fun _ _ => Iff.rfl, by simp, by simp⟩
  | cons p parameters ih =>
      obtain ⟨hp, hnodup⟩ := List.nodup_cons.mp hnodup
      obtain ⟨hcounter, hframe, hlow, hhigh⟩ := ih hnodup (counter + 1)
        (countInstance minInstances maxInstances (counter + 1) p toDelete)
      obtain ⟨hmax, hmin⟩ := @self_mem_countInstance _ _ (counter + 1) p toDelete hle
      rw [← hframe p hp] at hmax hmin
      rw [countExisting]
      generalize countExisting minInstances maxInstances parameters (counter + 1)
        (countInstance minInstances maxInstances (counter + 1) p toDelete) = r at *
      rw [List.length_cons]
      refine ⟨by omega, fun q hq => ?_, ?_⟩
      · rw [hframe q fun hmem => hq (List.mem_cons_of_mem _ hmem)]
        exact mem_countInstance fun heq => hq (heq ▸ List.mem_cons_self ..)
      · by_cases hin : p ∈ r.2
        · rw [List.countP_cons_of_neg (by simpa using hin)]
          have hbound : minInstances < counter + 1 := Nat.not_le.mp fun h => hmin h hin
          omega
        · rw [List.countP_cons_of_pos (by simpa using hin)]
          have hbound : ¬ maxInstances < counter + 1 := fun h => hin (hmax h)
          omega

variable {counter : Nat} {found : List (Nat × InstanceKeys)} {s : InstanceSet}

theorem countSupersets_counter :
    (countSupersets maxInstances found counter s).1 = counter + found.length := by
  induction found generalizing counter s with
  | nil => rfl
  | cons inst found ih =>
      rw [countSupersets, ih, List.length_cons]
      omega

theorem countSupersets_none (h : counter + found.length ≤ maxInstances) :
    (countSupersets maxInstances found counter s).2 = s := by
  induction found generalizing counter with
  | nil => rfl
  | cons inst found ih =>
      rw [List.length_cons] at h
      rw [countSupersets, if_neg (by omega)]
      exact ih (by omega)

/-- What is beyond the upper bound goes. -/
theorem countSupersets_count {p : Nat × InstanceKeys → Bool} (hmem : ∀ inst ∈ found, inst ∈ s.set)
    (hp : ∀ inst ∈ found, p inst = true) (hnodup : (found.map Prod.fst).Nodup) :
    (countSupersets maxInstances found counter s).2.set.countP p
      + (found.length - (maxInstances - counter)) = s.set.countP p := by
  induction found generalizing counter s with
  | nil => simp [countSupersets]
  | cons inst found ih =>
      rw [List.map_cons, List.nodup_cons] at hnodup
      have hin := hmem inst (List.mem_cons_self ..)
      have hpinst := hp inst (List.mem_cons_self ..)
      have hp' : ∀ i ∈ found, p i = true := fun i hi => hp i (List.mem_cons_of_mem _ hi)
      rw [countSupersets, List.length_cons]
      by_cases hmax : maxInstances < counter + 1
      · rw [if_pos hmax]
        have hrest : ∀ i ∈ found, i ∈ (s.delete inst.1).set := fun i hi =>
          InstanceSet.mem_delete.mpr ⟨hmem i (List.mem_cons_of_mem _ hi), fun heq =>
            hnodup.1 (heq ▸ List.mem_map_of_mem hi)⟩
        have hcount := @ih (counter + 1) (s.delete inst.1) hrest hp' hnodup.2
        have hdelete := @InstanceSet.countP_delete s p inst hin
        rw [List.countP_singleton, if_pos hpinst] at hdelete
        omega
      · rw [if_neg hmax]
        have hcount := @ih (counter + 1) s (fun i hi => hmem i (List.mem_cons_of_mem _ hi)) hp'
          hnodup.2
        omega

theorem countSubsets_counter :
    (countSubsets keys minInstances found counter s).1 = counter + found.length := by
  induction found generalizing counter s with
  | nil => rfl
  | cons inst found ih =>
      rw [countSubsets, ih, List.length_cons]
      omega

theorem countSubsets_none (h : minInstances ≤ counter) :
    (countSubsets keys minInstances found counter s).2 = s := by
  induction found generalizing counter with
  | nil => rfl
  | cons inst found ih =>
      rw [countSubsets, if_neg (by omega)]
      exact ih (by omega)

/-- Up to the lower bound those that lack keys are given them. -/
theorem countSubsets_count {p : Nat × InstanceKeys → Bool} (hmem : ∀ inst ∈ found, inst ∈ s.set)
    (hkeys : ∀ id, p (id, keys) = true) (hnodup : (found.map Prod.fst).Nodup) :
    (countSubsets keys minInstances found counter s).2.set.countP p
      = s.set.countP p + (found.take (minInstances - counter)).countP fun inst => !p inst := by
  induction found generalizing counter s with
  | nil => simp [countSubsets]
  | cons inst found ih =>
      rw [List.map_cons, List.nodup_cons] at hnodup
      have hin := hmem inst (List.mem_cons_self ..)
      rw [countSubsets]
      by_cases hmin : counter + 1 ≤ minInstances
      · rw [if_pos hmin]
        have hrest : ∀ i ∈ found, i ∈ ((s.delete inst.1).add keys).set := fun i hi =>
          InstanceSet.mem_add_of_mem (InstanceSet.mem_delete.mpr
            ⟨hmem i (List.mem_cons_of_mem _ hi), fun heq =>
              hnodup.1 (heq ▸ List.mem_map_of_mem hi)⟩)
        obtain ⟨n, hn⟩ : ∃ n, minInstances - counter = n + 1 :=
          ⟨minInstances - counter - 1, by omega⟩
        have hn' : minInstances - (counter + 1) = n := by omega
        rw [ih hrest hnodup.2, hn, hn', List.take_succ_cons, InstanceSet.countP_add,
          ← @InstanceSet.countP_delete s p inst hin]
        simp only [List.countP_cons, List.countP_nil, hkeys, if_true]
        cases p inst
        · simp only [Bool.not_false, if_true]
          simp
          omega
        · simp only [Bool.not_true, if_true]
          simp
      · rw [if_neg hmin, countSubsets_none (by omega)]
        have hzero : minInstances - counter = 0 := by omega
        rw [hzero]
        rfl

theorem addInstances_count {p : Nat × InstanceKeys → Bool} (hkeys : ∀ id, p (id, keys) = true)
    (n : Nat) : (addInstances keys n s).set.countP p = s.set.countP p + n := by
  induction n generalizing s with
  | zero => rfl
  | succ n ih =>
      rw [addInstances, ih, InstanceSet.countP_add, List.countP_singleton, if_pos (hkeys _)]
      omega

end Loops

/-! ## The bounds -/

section Bounds

variable {keys : InstanceKeys} {minInstances maxInstances counter : Nat} {s : InstanceSet}

theorem planCreations_enough (h : minInstances ≤ counter + s.supersets keys) :
    (planCreations keys minInstances maxInstances counter s).supersets keys
      = min (s.supersets keys) (maxInstances - counter) := by
  rw [planCreations]
  have hcounter := @countSupersets_counter maxInstances counter (s.superset keys) s
  have hcount := @countSupersets_count maxInstances counter (s.superset keys) s
    (fun inst => inst.2.Has keys) (fun _ h => (InstanceSet.mem_superset h).1)
    (fun _ h => (InstanceSet.mem_superset h).2) InstanceSet.superset_nodup
  rw [InstanceSet.superset_length] at hcounter hcount
  generalize countSupersets maxInstances (s.superset keys) counter s = r at *
  obtain ⟨c, s'⟩ := r
  dsimp only at hcounter hcount
  have hnone := @countSubsets_none keys minInstances c (s'.subset keys) s' (by omega)
  have hcounter' := @countSubsets_counter keys minInstances c (s'.subset keys) s'
  show (addInstances keys (minInstances - (countSubsets keys minInstances (s'.subset keys) c s').1)
    (countSubsets keys minInstances (s'.subset keys) c s').2).supersets keys = _
  have hzero : minInstances - (c + (s'.subset keys).length) = 0 := by omega
  rw [hnone, hcounter', hzero]
  show s'.set.countP _ = _
  have hs : s.set.countP (fun inst => inst.2.Has keys) = s.supersets keys := rfl
  rw [hs] at hcount
  omega

theorem planCreations_few (hle : minInstances ≤ maxInstances)
    (h : counter + s.supersets keys < minInstances) :
    (planCreations keys minInstances maxInstances counter s).supersets keys
      = s.supersets keys + min (minInstances - (counter + s.supersets keys)) (s.properSubsets keys)
        + (minInstances
          - (counter + s.supersets keys + s.properSubsets keys + s.equals keys)) := by
  rw [planCreations]
  have hcounter := @countSupersets_counter maxInstances counter (s.superset keys) s
  have hnone := @countSupersets_none maxInstances counter (s.superset keys) s
    (by rw [InstanceSet.superset_length]; omega)
  rw [InstanceSet.superset_length] at hcounter
  generalize countSupersets maxInstances (s.superset keys) counter s = r at *
  obtain ⟨c, s'⟩ := r
  obtain rfl : s' = s := hnone
  obtain rfl : c = counter + s'.supersets keys := hcounter
  have hcounter' := @countSubsets_counter keys minInstances (counter + s'.supersets keys)
    (s'.subset keys) s'
  have hcount := @countSubsets_count keys minInstances (counter + s'.supersets keys)
    (s'.subset keys) s' (fun inst => inst.2.Has keys) (fun _ h => (InstanceSet.mem_subset h).1)
    (fun _ => InstanceKeys.has_self) InstanceSet.subset_nodup
  rw [InstanceSet.subset_take] at hcount
  rw [InstanceSet.subset_length] at hcounter'
  show (addInstances keys _ _).set.countP (fun inst => inst.2.Has keys) = _
  rw [addInstances_count fun _ => InstanceKeys.has_self, hcount, hcounter', ← Nat.add_assoc]
  rfl

def Plan.Within (p : Plan) (parameters : List Path) (keys : InstanceKeys)
    (minInstances maxInstances : Nat) : Prop :=
  minInstances ≤ p.instances parameters keys ∧ p.instances parameters keys ≤ maxInstances

/-- The plan meets the bounds just when no creation is counted twice that is
needed, or, below an instance of `Downloads`, where nothing is planned, when it
met them before. -/
theorem processInstances_within_iff (paths : PathSet) (st : SyncState) (parent : Path)
    {parameters : List Path} (hnodup : parameters.Nodup) (keys : InstanceKeys)
    (hle : minInstances ≤ maxInstances) :
    let p := st.plan parent
    let after := processInstances paths st parent parameters (some keys) minInstances maxInstances
      false
    (after.2.plan parent).Within parameters keys minInstances maxInstances
      ↔ if isDownloads parent ∧ parent.length ≠ 1 then
          p.Within parameters keys minInstances maxInstances
        else p.toCreate.equals keys = 0 ∨ minInstances
          ≤ parameters.length + p.toCreate.supersets keys + p.toCreate.properSubsets keys := by
  intro p after
  by_cases hdown : isDownloads parent = true ∧ parent.length ≠ 1
  · have hafter : after = (paths.add parent, st) := if_pos hdown
    rw [if_pos hdown, hafter]
  · obtain ⟨hcounter, -, hlow, hhigh⟩ := countExisting_spec hle hnodup 0 p.toDelete
    have hafter : after.2.plan parent
        = ⟨planCreations keys minInstances maxInstances
            (countExisting minInstances maxInstances parameters 0 p.toDelete).1 p.toCreate,
          (countExisting minInstances maxInstances parameters 0 p.toDelete).2⟩ := by
      show ((processInstances paths st parent parameters (some keys) minInstances maxInstances
        false).2).plan parent = _
      rw [processInstances, if_neg hdown]
      exact SyncState.plan_setPlan st parent _
    rw [if_neg hdown, hafter, Plan.Within, Plan.instances]
    generalize countExisting minInstances maxInstances parameters 0 p.toDelete = r at *
    obtain ⟨c, toDelete⟩ := r
    obtain rfl : c = 0 + parameters.length := hcounter
    have hsupersets : ∀ s : InstanceSet, s.set.countP (fun inst => inst.2.Has keys)
        = s.supersets keys := fun _ => rfl
    show minInstances ≤ parameters.countP (fun q => q ∉ toDelete) + List.countP _ _
      ∧ parameters.countP (fun q => q ∉ toDelete) + List.countP _ _ ≤ maxInstances ↔ _
    dsimp only at hlow hhigh
    rw [Nat.sub_zero] at hlow hhigh
    rw [hsupersets, Nat.zero_add]
    by_cases henough : minInstances ≤ parameters.length + p.toCreate.supersets keys
    · rw [planCreations_enough henough]
      omega
    · rw [planCreations_few hle (by omega)]
      omega

/-- One instance exists, one is planned that can be given its key. -/
theorem processInstances_within_one :
    let keys : InstanceKeys := InsMap.empty.set (js "Name") (js "x")
    let st : SyncState :=
      ⟨.empty, InsMap.empty.set [js "A"] (InstanceSet.empty.add .empty), [], .empty⟩
    let p := st.plan [js "A"]
    let after := processInstances .empty st [js "A"] [[js "A", js "1"]] (some keys) 1 2 false
    (after.2.plan [js "A"]).Within [[js "A", js "1"]] keys 1 2
      ↔ if isDownloads [js "A"] ∧ [js "A"].length ≠ 1 then
          p.Within [[js "A", js "1"]] keys 1 2
        else p.toCreate.equals keys = 0
          ∨ 1 ≤ [[js "A", js "1"]].length + p.toCreate.supersets keys
            + p.toCreate.properSubsets keys :=
  processInstances_within_iff .empty _ [js "A"] (List.nodup_singleton _) _ (by decide)

/-- One instance is declared, then two with the same keys: the planned one
counts for both. -/
theorem equal_counted_twice :
    let keys : InstanceKeys := InsMap.empty.set (js "Name") (js "x")
    let one := processInstances .empty ⟨.empty, .empty, [], .empty⟩ [js "A"] [] (some keys) 1 1 false
    let two := processInstances one.1 one.2 [js "A"] [] (some keys) 2 2 false
    ¬ (two.2.plan [js "A"]).Within [] keys 2 2 := by
  intro keys one two h
  have hplanned : (two.2.plan [js "A"]).instances [] keys = 1 := by decide +kernel
  exact absurd h.1 (by rw [hplanned]; omega)

end Bounds

end GenieAcs
