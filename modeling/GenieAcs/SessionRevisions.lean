import Mathlib.Tactic.Linarith
import GenieAcs.SessionRequests
import GenieAcs.VersionedMapLaws

/-!
# The revisions of a session

A session opens one revision more for each commit. Every commit was paid with an
iteration, which counts by two, and the iterations of a cycle are limited; under
the default limit the last revision that a session opens is 32, two more than
those that the versioned maps keep their laws for.
-/

namespace GenieAcs

namespace Rpc

variable {D W P A B K : Type} [DecidableEq K]

/-! ## Sessions under the default limit -/

/-- The default of `cwmp.maxCommitIterations`. -/
def MAX_COMMIT_ITERATIONS : ℚ := 32

/-- The limit is looked up wherever it is used. -/
def UnderDefault : Event D W P A B → Prop
  | .request a _ => a.MAX_ITERATIONS = MAX_COMMIT_ITERATIONS * 2
  | .addProvisions MAX_ITERATIONS _ _ => MAX_ITERATIONS = MAX_COMMIT_ITERATIONS * 2
  | .clearProvisions MAX_ITERATIONS => MAX_ITERATIONS = MAX_COMMIT_ITERATIONS * 2
  | .response .. | .fault .. => True

/-- A session as `init` makes it. -/
def Initial (t : Trace D W P A) : Prop :=
  Begins t ∧ t.session.virtualParameters = [] ∧ t.session.declarations = []
    ∧ t.session.revisions = [0] ∧ t.session.syncState = none

def RunUnderDefault (H : Handlers D A B) (json : P → K) : Trace D W P A → Prop :=
  Reachable Initial fun t t' => ∃ e : Event D W P A B, UnderDefault e ∧ t' = step H json t e

/-- The commits of a level. -/
def commits (s : RpcContext D W P A) (level : Nat) : Nat := s.revisions.getD level 0

/-- The revision that is open at a level: `(revisions[inception] || 0) + 1`. -/
def openRevision (s : RpcContext D W P A) (level : Nat) : Nat := commits s level + 1

/-! ## Every commit is paid -/

/-- The iterations of the cycle. -/
def spent (s : RpcContext D W P A) : ℚ := s.iteration - 64 * s.cycle

/-- Each level has its commits paid, and once the declarations of the last level
were run one more of each level that they are for. -/
structure Paid (s : RpcContext D W P A) : Prop where
  paid : ∀ i, 2 * (commits s i : ℚ) ≤ spent s
  ahead : ∀ vpd, s.syncState = some vpd → s.declarations.length ≤ vpd.length →
    ∀ i < s.declarations.length, 2 * (commits s i : ℚ) + 2 ≤ spent s
  bound : ∀ i, commits s i ≤ 31
  sync : ∀ vpd, s.syncState = some vpd → vpd.length ≤ s.declarations.length
  rising : s.revisions.Pairwise (· ≤ ·)
  whole : s.revisions.length = s.virtualParameters.length + 1
    ∨ s.revisions.length ≤ s.virtualParameters.length ∧ ∀ i, commits s i = 0
  depth : s.declarations.length ≤ s.virtualParameters.length + 1

theorem Paid.spent_nonneg {s : RpcContext D W P A} (h : Paid s) : 0 ≤ spent s := by
  have hpaid := h.paid 0
  have hzero : (0 : ℚ) ≤ commits s 0 := Nat.cast_nonneg _
  linarith

/-- The rest of a session does not matter. -/
theorem Paid.frame {s s' : RpcContext D W P A} (h : Paid s) (hrevisions : s'.revisions = s.revisions)
    (hvparams : s'.virtualParameters = s.virtualParameters)
    (hdeclarations : s'.declarations = s.declarations) (hsync : s'.syncState = s.syncState)
    (hiteration : s'.iteration = s.iteration) (hcycle : s'.cycle = s.cycle) : Paid s' := by
  have hcommits : ∀ i, commits s' i = commits s i := by
    intro i
    rw [commits, commits, hrevisions]
  have hspent : spent s' = spent s := by rw [spent, spent, hiteration, hcycle]
  refine ⟨?_, ?_, ?_, ?_, ?_, ?_, ?_⟩
  · simpa only [hcommits, hspent] using h.paid
  · simpa only [hcommits, hspent, hsync, hdeclarations] using h.ahead
  · simpa only [hcommits] using h.bound
  · simpa only [hsync, hdeclarations] using h.sync
  · simpa only [hrevisions] using h.rising
  · simpa only [hrevisions, hvparams, hcommits] using h.whole
  · simpa only [hdeclarations, hvparams] using h.depth

/-- The script of a level was run. -/
theorem Paid.declare {s : RpcContext D W P A} (h : Paid s)
    (hscript : s.declarations.length ≤ s.virtualParameters.length) (deviceData : D)
    (declare : List W) (ret : List Bool) :
    Paid { s with
      deviceData
      declarations := s.declarations ++ [declare]
      provisionsRet := ret } where
  paid := h.paid
  ahead vpd hvpd hlen := by
    have hsync := h.sync vpd hvpd
    simp only [List.length_append, List.length_singleton] at hlen
    omega
  bound := h.bound
  sync vpd hvpd := by
    have hsync := h.sync vpd hvpd
    simp only [List.length_append, List.length_singleton]
    omega
  rising := h.rising
  whole := h.whole
  depth := by
    simp only [List.length_append, List.length_singleton]
    omega

/-- What was synchronized is dropped, and anything declared. -/
theorem Paid.restartSync {s : RpcContext D W P A} (h : Paid s) (declarations : List (List W))
    (hdepth : declarations.length ≤ s.virtualParameters.length + 1) :
    Paid { s with syncState := none, declarations } where
  paid := h.paid
  ahead _ hvpd := nomatch hvpd
  bound := h.bound
  sync _ hvpd := nomatch hvpd
  rising := h.rising
  whole := h.whole
  depth := hdepth

/-- The declarations of a level were run, and paid for at the last level. -/
theorem Paid.declared {s : RpcContext D W P A} (h : Paid s) (vpd : W)
    (hlevel : (s.syncState.getD []).length < s.declarations.length) :
    Paid { s with
      syncState := some (s.syncState.getD [] ++ [vpd])
      iteration := if (s.syncState.getD []).length = s.declarations.length - 1
        then s.iteration + 2 else s.iteration } := by
  set s' : RpcContext D W P A := { s with
      syncState := some (s.syncState.getD [] ++ [vpd])
      iteration := if (s.syncState.getD []).length = s.declarations.length - 1
        then s.iteration + 2 else s.iteration } with hs'
  have hspent : spent s' = if (s.syncState.getD []).length = s.declarations.length - 1
      then spent s + 2 else spent s := by
    rw [hs']
    unfold spent
    dsimp only
    split_ifs <;> ring
  have hle : spent s ≤ spent s' := by
    rw [hspent]
    split_ifs <;> linarith
  refine ⟨fun i => (h.paid i).trans hle, fun v hv hlen i hi => ?_, h.bound, fun v hv => ?_,
    h.rising, h.whole, h.depth⟩
  · obtain rfl := (Option.some.inj hv).symm
    rw [List.length_append, List.length_singleton] at hlen
    rw [hspent, if_pos (by change s.declarations.length ≤ _ at hlen; omega)]
    have hpaid := h.paid i
    change 2 * (commits s i : ℚ) + 2 ≤ _
    linarith
  · obtain rfl := (Option.some.inj hv).symm
    rw [List.length_append, List.length_singleton]
    exact hlevel

theorem getLastD_eq (l : List Nat) : l.getLastD 0 = l.getD (l.length - 1) 0 := by
  rcases List.eq_nil_or_concat' l with rfl | ⟨init, x, rfl⟩
  · rfl
  · rw [List.getLastD_concat, List.length_append, List.length_singleton, Nat.add_sub_cancel,
      List.getD_eq_getElem?_getD, List.getElem?_concat_length]
    rfl

theorem le_last {l : List Nat} (h : l.Pairwise (· ≤ ·)) {x : Nat} (hx : x ∈ l) :
    x ≤ l.getD (l.length - 1) 0 := by
  rw [← getLastD_eq]
  rcases List.eq_nil_or_concat' l with rfl | ⟨init, y, rfl⟩
  · cases hx
  · rw [List.getLastD_concat]
    rcases List.mem_append.mp hx with hx | hx
    · exact (List.pairwise_append.mp h).2.2 x hx y (List.mem_singleton_self y)
    · exact Nat.le_of_eq (List.mem_singleton.mp hx)

theorem modify_concat (init : List Nat) (x : Nat) (f : Nat → Nat) :
    (init ++ [x]).modify init.length f = init ++ [f x] := by
  induction init with
  | nil => rfl
  | cons y init ih => simpa using ih

/-- A level that has declarations of its own is the last one. -/
theorem Paid.last_level {s : RpcContext D W P A} (h : Paid s)
    (hlevel : s.virtualParameters.length < s.declarations.length) :
    ∀ x ∈ s.revisions, x ≤ commits s (s.declarations.length - 1) := by
  intro x hx
  have hdepth := h.depth
  rcases h.whole with hwhole | ⟨-, hzero⟩
  · rw [show s.declarations.length - 1 = s.revisions.length - 1 by omega]
    exact le_last h.rising hx
  · obtain ⟨i, hi⟩ := List.getElem?_of_mem hx
    have hcommits := hzero i
    rw [commits, List.getD_eq_getElem?_getD, hi, Option.getD_some] at hcommits
    omega

/-- A level is left. -/
theorem Paid.leave {s : RpcContext D W P A} (h : Paid s)
    (hdone : s.declarations.length ≤ s.virtualParameters.length) :
    Paid { s with
      revisions := s.revisions.dropLast
      virtualParameters := s.virtualParameters.dropLast } := by
  set s' : RpcContext D W P A := { s with
      revisions := s.revisions.dropLast
      virtualParameters := s.virtualParameters.dropLast } with hs'
  have hcommits : ∀ i, commits s' i ≤ commits s i := by
    intro i
    rw [hs']
    unfold commits
    dsimp only
    rw [List.getD_eq_getElem?_getD, List.getD_eq_getElem?_getD, List.getElem?_dropLast]
    split_ifs
    · exact Nat.le_refl _
    · exact Nat.zero_le _
  have hcast : ∀ i, (commits s' i : ℚ) ≤ commits s i := fun i => Nat.cast_le.mpr (hcommits i)
  have hspent : spent s' = spent s := rfl
  refine ⟨fun i => ?_, fun v hv hlen i hi => ?_, fun i => (hcommits i).trans (h.bound i), h.sync,
    ?_, ?_, ?_⟩
  · have hpaid := h.paid i
    have := hcast i
    rw [hspent]
    linarith
  · have hahead := h.ahead v hv hlen i hi
    have := hcast i
    rw [hspent]
    linarith
  · exact h.rising.sublist (List.dropLast_sublist _)
  · simp only [hs', List.length_dropLast]
    rcases h.whole with hwhole | ⟨hle, hzero⟩
    · cases hvparams : s.virtualParameters with
      | nil =>
          rw [hvparams, List.length_nil] at hwhole
          refine Or.inr ⟨by rw [List.length_nil]; omega, fun i => ?_⟩
          rw [commits, List.length_eq_zero_iff.mp (show s.revisions.dropLast.length = 0 by
            rw [List.length_dropLast]; omega)]
          rfl
      | cons v rest =>
          rw [hvparams, List.length_cons] at hwhole
          rw [List.length_cons]
          exact Or.inl (by omega)
    · refine Or.inr ⟨by omega, fun i => ?_⟩
      have hle := hcommits i
      rw [hzero i] at hle
      exact Nat.le_zero.mp hle
  · simp only [hs', List.length_dropLast]
    omega

/-- Virtual parameters are nested below a level that is paid ahead. -/
theorem Paid.nest {s : RpcContext D W P A} (h : Paid s) (deviceData : D) (provisions : W)
    {vpd : List W} (hvpd : s.syncState = some vpd) (hlen : s.declarations.length ≤ vpd.length)
    (hlevel : s.virtualParameters.length < s.declarations.length) :
    Paid (nest s deviceData provisions) := by
  have hcommits : ∀ i, commits (Rpc.nest s deviceData provisions) i
      = if i = s.revisions.length then commits s (s.declarations.length - 1) else commits s i := by
    intro i
    unfold commits Rpc.nest
    dsimp only
    rw [List.getD_eq_getElem?_getD, List.getD_eq_getElem?_getD, List.getD_eq_getElem?_getD]
    split_ifs with hi
    · rw [hi, List.getElem?_concat_length]
      rfl
    · rcases Nat.lt_or_gt_of_ne hi with hlt | hgt
      · rw [List.getElem?_append_left hlt]
      · rw [List.getElem?_eq_none (by simp; omega), List.getElem?_eq_none (by omega)]
  have hlast : s.declarations.length - 1 < s.declarations.length := by omega
  refine ⟨fun i => ?_, fun v hv hlen' i hi => ?_, fun i => ?_, h.sync, ?_, ?_, ?_⟩
  · rw [hcommits]
    split_ifs
    · exact h.paid _
    · exact h.paid i
  · rw [hcommits]
    split_ifs
    · exact h.ahead vpd hvpd hlen _ hlast
    · exact h.ahead v hv hlen' i hi
  · rw [hcommits]
    split_ifs
    · exact h.bound _
    · exact h.bound i
  · refine List.pairwise_append.mpr ⟨h.rising, List.pairwise_singleton .., ?_⟩
    intro x hx y hy
    rw [List.mem_singleton.mp hy]
    exact h.last_level hlevel x hx
  · have hrevisions : (Rpc.nest s deviceData provisions).revisions.length
        = s.revisions.length + 1 := List.length_append
    have hvparams : (Rpc.nest s deviceData provisions).virtualParameters.length
        = s.virtualParameters.length + 1 := List.length_append
    rw [hrevisions, hvparams]
    rcases h.whole with hwhole | ⟨hle, hzero⟩
    · exact Or.inl (by omega)
    · refine Or.inr ⟨by omega, fun i => ?_⟩
      rw [hcommits]
      split_ifs <;> exact hzero _
  · have hvparams : (Rpc.nest s deviceData provisions).virtualParameters.length
        = s.virtualParameters.length + 1 := List.length_append
    have hdepth := h.depth
    rw [hvparams]
    exact Nat.le_succ_of_le hdepth

/-- The level is committed. -/
theorem Paid.commit {s : RpcContext D W P A} (h : Paid s) {vpd : List W}
    (hvpd : s.syncState = some vpd) (hlen : s.declarations.length ≤ vpd.length)
    (hlevel : s.virtualParameters.length < s.declarations.length) (hspent : spent s < 64) :
    Paid { s with
      revisions := s.revisions.modify (s.declarations.length - 1) (· + 1)
      declarations := s.declarations.dropLast
      syncState := s.syncState.map List.dropLast } := by
  set s' : RpcContext D W P A := { s with
      revisions := s.revisions.modify (s.declarations.length - 1) (· + 1)
      declarations := s.declarations.dropLast
      syncState := s.syncState.map List.dropLast } with hs'
  have hlast : s.declarations.length - 1 < s.declarations.length := by omega
  have hahead := h.ahead vpd hvpd hlen
  have hcommits : ∀ i, commits s' i ≤ commits s i
      ∨ i = s.declarations.length - 1 ∧ commits s' i = commits s i + 1 := by
    intro i
    rw [hs']
    unfold commits
    dsimp only
    rw [List.getD_eq_getElem?_getD, List.getD_eq_getElem?_getD, List.getElem?_modify]
    cases hi : s.revisions[i]? with
    | none => exact Or.inl (Nat.le_refl _)
    | some r =>
        by_cases heq : s.declarations.length - 1 = i
        · refine Or.inr ⟨heq.symm, ?_⟩
          simp [heq]
        · refine Or.inl ?_
          simp [heq]
  have hrevisions : (∃ init x, s.revisions = init ++ [x] ∧ s'.revisions = init ++ [x + 1]
        ∧ s.revisions.length = s.virtualParameters.length + 1)
      ∨ s.revisions.length ≤ s.virtualParameters.length ∧ (∀ i, commits s i = 0)
        ∧ s'.revisions = s.revisions := by
    have hdepth := h.depth
    rcases h.whole with hwhole | ⟨hle, hzero⟩
    · rcases List.eq_nil_or_concat' s.revisions with hnil | ⟨init, x, hconcat⟩
      · rw [hnil, List.length_nil] at hwhole
        omega
      · refine Or.inl ⟨init, x, hconcat, ?_, hwhole⟩
        rw [hconcat, List.length_append, List.length_singleton] at hwhole
        rw [hs', hconcat, show s.declarations.length - 1 = init.length by omega, modify_concat]
    · refine Or.inr ⟨hle, hzero, List.modify_eq_self ?_⟩
      omega
  have hlt : ∀ i < s.declarations.length - 1, commits s' i ≤ commits s i := by
    intro i hi
    rcases hcommits i with hle | ⟨heq, -⟩
    · exact hle
    · omega
  have hspent' : spent s' = spent s := rfl
  refine ⟨fun i => ?_, fun v hv hv' i hi => ?_, fun i => ?_, fun v hv => ?_, ?_, ?_, ?_⟩
  · rw [hspent']
    rcases hcommits i with hle | ⟨rfl, heq⟩
    · have hcast : (commits s' i : ℚ) ≤ commits s i := Nat.cast_le.mpr hle
      have hpaid := h.paid i
      linarith
    · have hnext := hahead _ hlast
      rw [heq, Nat.cast_add, Nat.cast_one]
      linarith
  · have hi' : i < s.declarations.length - 1 := by
      simpa only [hs', List.length_dropLast] using hi
    have hcast : (commits s' i : ℚ) ≤ commits s i := Nat.cast_le.mpr (hlt i hi')
    have hnext := hahead i (by omega)
    rw [hspent']
    linarith
  · rcases hcommits i with hle | ⟨rfl, heq⟩
    · exact Nat.le_trans hle (h.bound i)
    · have hnext := hahead _ hlast
      have hcast : (commits s (s.declarations.length - 1) : ℚ) < (31 : Nat) := by
        push_cast
        linarith
      have := Nat.cast_lt.mp hcast
      omega
  · obtain ⟨v', hv', rfl⟩ := Option.map_eq_some_iff.mp hv
    have hsync := h.sync v' hv'
    simp only [hs', List.length_dropLast]
    omega
  · rcases hrevisions with ⟨init, x, hconcat, hnext, -⟩ | ⟨-, -, hsame⟩
    · have hrising := h.rising
      rw [hconcat] at hrising
      obtain ⟨hinit, -, hle⟩ := List.pairwise_append.mp hrising
      rw [hnext]
      refine List.pairwise_append.mpr ⟨hinit, List.pairwise_singleton .., ?_⟩
      intro y hy z hz
      rw [List.mem_singleton.mp hz]
      exact Nat.le_succ_of_le (hle y hy x (List.mem_singleton_self x))
    · rw [hsame]
      exact h.rising
  · rcases hrevisions with ⟨init, x, hconcat, hnext, hwhole⟩ | ⟨hle, hzero, hsame⟩
    · rw [hconcat, List.length_append, List.length_singleton] at hwhole
      rw [hnext, List.length_append, List.length_singleton]
      exact Or.inl hwhole
    · refine Or.inr ⟨hsame ▸ hle, fun i => ?_⟩
      rw [commits, hsame]
      exact hzero i
  · have hdepth := h.depth
    simp only [hs', List.length_dropLast]
    omega

/-- The last declarations are satisfied. -/
theorem Paid.satisfied {s : RpcContext D W P A} (h : Paid s) (deviceData : D)
    {vpd : List W} (hvpd : s.syncState = some vpd) (hlen : s.declarations.length ≤ vpd.length)
    (hlevel : s.virtualParameters.length < s.declarations.length) (hspent : spent s < 64) :
    Paid (satisfied s deviceData).1 := by
  have hcommit := h.commit hvpd hlen hlevel hspent
  have hdone : s.declarations.dropLast.length ≤ s.virtualParameters.length := by
    have hdepth := h.depth
    rw [List.length_dropLast]
    omega
  have hleave := hcommit.leave hdone
  unfold Rpc.satisfied
  dsimp only
  split_ifs
  · exact hcommit.frame rfl rfl rfl rfl rfl rfl
  · exact hleave.frame rfl rfl rfl rfl rfl rfl
  · exact hleave.frame rfl rfl rfl rfl rfl rfl

/-- A session whose commits were taken back. -/
theorem Paid.begun {s : RpcContext D W P A} (hrevisions : s.revisions = [0])
    (hdeclarations : s.declarations = []) (hsync : s.syncState = none) (hspent : 0 ≤ spent s) :
    Paid s := by
  have hzero : ∀ i, commits s i = 0 := by
    intro i
    rw [commits, hrevisions]
    cases i <;> rfl
  refine ⟨fun i => ?_, fun v hv => ?_, fun i => ?_, fun v hv => ?_, ?_, ?_, ?_⟩
  · rw [hzero i]
    simpa using hspent
  · rw [hsync] at hv
    cases hv
  · rw [hzero i]
    exact Nat.zero_le _
  · rw [hsync] at hv
    cases hv
  · rw [hrevisions]
    exact List.pairwise_singleton ..
  · rw [hrevisions, List.length_singleton]
    rcases Nat.eq_zero_or_pos s.virtualParameters.length with hvparams | hvparams
    · exact Or.inl (by omega)
    · exact Or.inr ⟨hvparams, hzero⟩
  · rw [hdeclarations]
    exact Nat.zero_le _

theorem spent_restart {s : RpcContext D W P A} (h : 0 ≤ spent s) :
    0 ≤ spent (restart (MAX_COMMIT_ITERATIONS * 2) s) := by
  unfold Rpc.restart
  split_ifs
  · rw [spent, MAX_COMMIT_ITERATIONS]
    push_cast
    linarith
  · exact h

/-- Another cycle begins with nothing to pay for. -/
theorem Paid.restart {s : RpcContext D W P A} (h : Paid s) (hzero : ∀ i, commits s i = 0)
    (hsync : s.syncState = none) : Paid (restart (MAX_COMMIT_ITERATIONS * 2) s) := by
  have hspent := spent_restart h.spent_nonneg
  unfold Rpc.restart at hspent ⊢
  split_ifs at hspent ⊢
  · refine ⟨fun i => ?_, fun v hv => ?_, h.bound, h.sync, h.rising, h.whole, h.depth⟩
    · have hnone : 2 * (commits s i : ℚ) ≤ 0 := by rw [hzero i, Nat.cast_zero, mul_zero]
      exact hnone.trans hspent
    · rw [show s.syncState = none from hsync] at hv
      cases hv
  · exact h

/-! ## One event -/

theorem Paid.rpcRequest {s : RpcContext D W P A} (h : Paid s) (a : Answers D W A)
    (declarations : List W) (hmax : a.MAX_ITERATIONS = MAX_COMMIT_ITERATIONS * 2) :
    Paid (rpcRequest s a declarations).1 := by
  have hsame : ∀ {s' : RpcContext D W P A}, s'.revisions = s.revisions →
      s'.virtualParameters = s.virtualParameters → s'.declarations = s.declarations →
      s'.syncState = s.syncState → s'.iteration = s.iteration → s'.cycle = s.cycle → Paid s' :=
    h.frame
  unfold Rpc.rpcRequest
  cases hreq : s.rpcRequest with
  | some rpc => exact h
  | none =>
      dsimp only
      by_cases hidle : s.virtualParameters = [] ∧ s.declarations = [] ∧ declarations = []
          ∧ s.provisioning.provisions = []
      · rw [if_pos hidle]
        exact h
      rw [if_neg hidle]
      by_cases hscript : s.declarations.length ≤ s.virtualParameters.length
      · rw [if_pos hscript]
        cases a.run with
        | fault code => exact h.frame rfl rfl rfl rfl rfl rfl
        | done declare ret =>
            exact (h.declare hscript a.deviceData declare []).frame rfl rfl rfl rfl rfl rfl
      rw [if_neg hscript]
      by_cases hdecl : declarations ≠ []
      · rw [if_pos hdecl]
        exact (h.restartSync _ (by have := h.depth; simp; omega)).frame rfl rfl rfl rfl rfl rfl
      rw [if_neg hdecl]
      by_cases hcount : 255 ≤ s.rpcCount
      · rw [if_pos hcount]
        exact h
      rw [if_neg hcount]
      by_cases hdepth : 8 ≤ s.revisions.length
      · rw [if_pos hdepth]
        exact h
      rw [if_neg hdepth]
      by_cases hcycle : 255 ≤ s.cycle
      · rw [if_pos hcycle]
        exact h
      rw [if_neg hcycle]
      by_cases hlimit : a.MAX_ITERATIONS * (s.cycle + 1) ≤ s.iteration
      · rw [if_pos hlimit]
        exact h
      rw [if_neg hlimit]
      by_cases hunsynced : s.syncState = none
          ∨ (s.syncState.getD []).length < s.declarations.length
      · rw [if_pos hunsynced]
        have hlevel : (s.syncState.getD []).length < s.declarations.length := by
          rcases hunsynced with hnone | hlt
          · rw [hnone]
            exact Nat.lt_of_le_of_lt (Nat.zero_le _) (Nat.lt_of_not_le hscript)
          · exact hlt
        exact (h.declared a.virtualParameterDeclarations hlevel).frame rfl rfl rfl rfl rfl rfl
      rw [if_neg hunsynced]
      obtain ⟨hsome, hlen⟩ := not_or.mp hunsynced
      obtain ⟨vpd, hvpd⟩ := Option.ne_none_iff_exists'.mp hsome
      rw [hvpd, Option.getD_some, Nat.not_lt] at hlen
      have hspent : spent s < 64 := by
        rw [hmax, MAX_COMMIT_ITERATIONS] at hlimit
        unfold spent
        linarith
      have hlevel := Nat.lt_of_not_le hscript
      cases a.generated with
      | provisions provisions => exact h.nest a.deviceData provisions hvpd hlen hlevel
      | get rpcReq => exact h.frame rfl rfl rfl rfl rfl rfl
      | prerequisite => exact (h.restartSync s.declarations h.depth).frame rfl rfl rfl rfl rfl rfl
      | updated => exact h.frame rfl rfl rfl rfl rfl rfl
      | set rpcReq => exact h.frame rfl rfl rfl rfl rfl rfl
      | nothing => exact h.satisfied a.deviceData hvpd hlen hlevel hspent

section

variable {H : Handlers D A B}

theorem Paid.rpcResponse {s : RpcContext D W P A} (h : Paid s) (id : JsString)
    (rpcRes : CpeResponse B) (datetimeMilliseconds booleanLiteral : Bool) :
    Paid (rpcResponse H s id rpcRes datetimeMilliseconds booleanLiteral).1 := by
  unfold Rpc.rpcResponse
  split_ifs
  · exact h
  · dsimp only
    cases s.rpcRequest with
    | none => exact h.frame rfl rfl rfl rfl rfl rfl
    | some rpcReq =>
        dsimp only
        cases following H rpcReq rpcRes datetimeMilliseconds booleanLiteral with
        | error e => exact h.frame rfl rfl rfl rfl rfl rfl
        | ok next =>
            dsimp only
            split
            · exact h.frame rfl rfl rfl rfl rfl rfl
            · exact h.frame rfl rfl rfl rfl rfl rfl

theorem Paid.rpcFault {s : RpcContext D W P A} (h : Paid s) (id : JsString)
    (faultResponse : CpeFault) : Paid (rpcFault H s id faultResponse).1 := by
  have hfault := h.restartSync s.declarations h.depth
  unfold Rpc.rpcFault
  dsimp only
  split_ifs
  · cases s.rpcRequest with
    | none => exact hfault.frame rfl rfl rfl rfl rfl rfl
    | some rpcReq =>
        dsimp only
        split
        · exact hfault.frame rfl rfl rfl rfl rfl rfl
        · exact hfault.frame rfl rfl rfl rfl rfl rfl
  · exact hfault.frame rfl rfl rfl rfl rfl rfl

theorem Paid.addProvisions {s : RpcContext D W P A} (h : Paid s) (json : P → K)
    (channel : Channel) (provisions : List P) :
    Paid (addProvisions H json (MAX_COMMIT_ITERATIONS * 2) s channel provisions) := by
  let dropped : RpcContext D W P A :=
    { s with syncState := none, rpcRequest := none, declarations := [], provisionsRet := [] }
  have hdropped : Paid dropped :=
    (h.restartSync [] (Nat.zero_le _)).frame rfl rfl rfl rfl rfl rfl
  let cut : RpcContext D W P A := if 0 < dropped.revisions.getLastD 0
    then { dropped with deviceData := H.collapse dropped.deviceData, revisions := [0] } else dropped
  have hcut : Paid cut ∧ (∀ i, commits cut i = 0) ∧ cut.syncState = none := by
    by_cases hlast : 0 < dropped.revisions.getLastD 0
    · rw [show cut = _ from if_pos hlast]
      refine ⟨Paid.begun rfl rfl rfl h.spent_nonneg, fun i => ?_, rfl⟩
      cases i <;> rfl
    · rw [show cut = _ from if_neg hlast]
      refine ⟨hdropped, fun i => ?_, rfl⟩
      -- the last level has the most commits
      rw [getLastD_eq, Nat.not_lt, Nat.le_zero] at hlast
      rw [commits, List.getD_eq_getElem?_getD]
      cases hi : dropped.revisions[i]? with
      | none => rfl
      | some r => exact Nat.le_zero.mp (hlast ▸ le_last hdropped.rising (List.mem_of_getElem? hi))
  exact (hcut.1.restart hcut.2.1 hcut.2.2).frame rfl rfl rfl rfl rfl rfl

theorem Paid.clearProvisions {s : RpcContext D W P A} (h : Paid s) :
    Paid (clearProvisions H (MAX_COMMIT_ITERATIONS * 2) s) := by
  let cut : RpcContext D W P A := if 0 < s.revisions.getLastD 0
    then { s with deviceData := H.collapse s.deviceData } else s
  have hcut : spent cut = spent s := by
    by_cases hlast : 0 < s.revisions.getLastD 0
    · rw [show cut = _ from if_pos hlast]
      rfl
    · rw [show cut = _ from if_neg hlast]
  exact Paid.begun rfl rfl rfl (spent_restart (hcut ▸ h.spent_nonneg : 0 ≤ spent cut))

variable {t t' : Trace D W P A}

theorem Paid.step (json : P → K) (h : Paid t.session) {e : Event D W P A B} (he : UnderDefault e) :
    Paid (step H json t e).session := by
  have hreceive : ∀ r : RpcContext D W P A × Outcome, Paid r.1 → Paid (receive t r).session := by
    intro r hr
    unfold receive
    split_ifs
    · exact h
    · exact hr
  cases e with
  | request answers declarations =>
      have hrequest := h.rpcRequest answers declarations he
      rw [Rpc.step, send]
      split
      · exact hrequest
      · exact hrequest
  | response id rpcRes datetimeMilliseconds booleanLiteral =>
      exact hreceive _ (h.rpcResponse id rpcRes datetimeMilliseconds booleanLiteral)
  | fault id faultResponse => exact hreceive _ (h.rpcFault id faultResponse)
  | addProvisions m channel provisions =>
      obtain rfl : m = MAX_COMMIT_ITERATIONS * 2 := he
      exact h.addProvisions json channel provisions
  | clearProvisions m =>
      obtain rfl : m = MAX_COMMIT_ITERATIONS * 2 := he
      exact h.clearProvisions

/-- The run lemma. -/
theorem Paid.of_run {json : P → K} (h : RunUnderDefault H json t) : Paid t.session := by
  refine h.invariant (P := fun t => Paid t.session) ?_ ?_
  · rintro t ⟨⟨-, -, hcycle, -, hiteration⟩, -, hdeclarations, hrevisions, hsync⟩
    refine Paid.begun hrevisions hdeclarations hsync ?_
    rw [spent, hcycle, hiteration]
    simp
  · rintro t t' ht ⟨e, he, rfl⟩
    exact ht.step json he

end

/-! ## The two bounds -/

/-- A session opens no revision after 32, and the map keeps its laws for those
up to 30. -/
theorem openRevision_laws (H : Handlers D A B) (json : P → K) {t : Trace D W P A}
    (h : RunUnderDefault H json t) (level : Nat) :
    openRevision t.session level ≤ 32
      ∧ (VersionedMap.Laws (openRevision t.session level)
        ↔ openRevision t.session level ≤ 30) := by
  have hbound := (Paid.of_run h).bound level
  have hopen : openRevision t.session level = commits t.session level + 1 := rfl
  refine ⟨by omega, fun hlaws => ?_, VersionedMap.laws_of_le⟩
  by_contra hgt
  have hlast : openRevision t.session level = 31 ∨ openRevision t.session level = 32 := by omega
  rcases hlast with heq | heq
  · exact VersionedMap.not_laws_sign (heq ▸ hlaws)
  · exact VersionedMap.not_laws_wrap (heq ▸ hlaws)

/-! ## A session that commits again and again -/

/-- Nothing is stored. -/
def noHandlers : Handlers Unit Unit Unit where
  sanitizeParameterValue p := (none, p.2)
  store _ _ _ _ deviceData := (deviceData, none)
  recover _ _ _ _ := none
  collapse := id

/-- After `n` commits of a provision that never comes to its end. -/
def committed (provisioning : Provisioning Unit) (syncState : Option (List Unit)) (n : Nat) :
    Trace Unit Unit Unit Unit :=
  { session :=
      { timestamp := 0
        deviceData := ()
        provisioning
        revisions := [n]
        syncState
        iteration := 2 * n }
    sent := [] }

/-- The script commits, and nothing is to be got or set. -/
def idleAnswers : Answers Unit Unit Unit where
  deviceData := ()
  run := .done [] false
  MAX_ITERATIONS := MAX_COMMIT_ITERATIONS * 2
  virtualParameterDeclarations := ()
  generated := .nothing

theorem commit_round {provisioning : Provisioning Unit} {syncState : Option (List Unit)} {n : Nat}
    (hprovisions : provisioning.provisions ≠ []) (hsync : syncState.getD [] = []) (hn : n ≤ 30) :
    [Event.request idleAnswers [], .request idleAnswers [], .request idleAnswers []].foldl
        (step noHandlers (id : Unit → Unit)) (committed provisioning syncState n)
      = committed provisioning (some []) (n + 1) := by
  have hcast : (n : ℚ) ≤ 30 := by exact_mod_cast hn
  have hfirst : ¬ MAX_COMMIT_ITERATIONS * 2 ≤ 2 * (n : ℚ) := by
    rw [MAX_COMMIT_ITERATIONS]
    linarith
  have hsecond : ¬ MAX_COMMIT_ITERATIONS * 2 ≤ 2 * ((n : ℚ) + 1) := by
    rw [MAX_COMMIT_ITERATIONS]
    linarith
  have hnext : 2 * (n : ℚ) + 2 = 2 * (n + 1) := by ring
  simp [step, send, rpcRequest, satisfied, committed, idleAnswers, hprovisions, hsync, hfirst,
    hsecond, hnext]

theorem committed_begins : Initial (committed {} none 0) := by
  simp [Initial, Begins, committed]

theorem committed_run (n : Nat) : n ≤ 31 → ∃ provisioning syncState,
    provisioning.provisions ≠ [] ∧ syncState.getD [] = []
      ∧ RunUnderDefault noHandlers (id : Unit → Unit) (committed provisioning syncState n) := by
  induction n with
  | zero =>
      intro _
      refine ⟨Provisioning.addProvisions id {} (.named "") [()], none, by simp [
        Provisioning.addProvisions, Provisioning.addProvision], rfl, ?_⟩
      have hstart : RunUnderDefault noHandlers (id : Unit → Unit) (committed {} none 0) :=
        .init committed_begins
      refine hstart.step ⟨.addProvisions (MAX_COMMIT_ITERATIONS * 2) (.named "") [()], rfl, ?_⟩
      simp [step, addProvisions, restart, committed]
  | succ n ih =>
      intro hn
      obtain ⟨provisioning, syncState, hprovisions, hsync, hrun⟩ := ih (by omega)
      refine ⟨provisioning, some [], hprovisions, rfl, ?_⟩
      rw [← commit_round hprovisions hsync (by omega)]
      have hrequest : UnderDefault
          (.request idleAnswers [] : Event Unit Unit Unit Unit Unit) := rfl
      exact ((hrun.step ⟨_, hrequest, rfl⟩).step ⟨_, hrequest, rfl⟩).step ⟨_, hrequest, rfl⟩

/-- A session opens revision 31 and revision 32, where the map breaks its laws. -/
theorem session_outruns_masks :
    (∃ t : Trace Unit Unit Unit Unit,
        RunUnderDefault noHandlers (id : Unit → Unit) t ∧ openRevision t.session 0 = 31)
      ∧ (∃ t : Trace Unit Unit Unit Unit,
        RunUnderDefault noHandlers (id : Unit → Unit) t ∧ openRevision t.session 0 = 32)
      ∧ ¬ VersionedMap.Laws 31 ∧ ¬ VersionedMap.Laws 32 := by
  obtain ⟨_, _, -, -, hrun30⟩ := committed_run 30 (by omega)
  obtain ⟨_, _, -, -, hrun31⟩ := committed_run 31 (by omega)
  exact ⟨⟨_, hrun30, rfl⟩, ⟨_, hrun31, rfl⟩, VersionedMap.not_laws_sign,
    VersionedMap.not_laws_wrap⟩

theorem openRevision_laws_begun :
    openRevision (committed {} none 0).session 0 ≤ 32
      ∧ (VersionedMap.Laws (openRevision (committed {} none 0).session 0)
        ↔ openRevision (committed {} none 0).session 0 ≤ 30) :=
  openRevision_laws noHandlers (id : Unit → Unit) (.init committed_begins) 0

end Rpc

end GenieAcs
