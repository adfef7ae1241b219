import GenieAcs.ExpressionFilter
import GenieAcs.Lib.Returns
import GenieAcs.Synth

/-!
# The variables of a filter

The clauses of a filter that become variables are parameters, comparisons of
a parameter with a literal, and null tests of a parameter. `Leaf` lists them,
and a context the synthesis of filters can reach is `ofLeaves ls` for a list
of distinct leaves. Contexts only grow, so what a minterm says is fixed by the
context it was made in: `Denotes ls ms P` says that on the rows that `ls` is
read on, `ms` holds exactly where `P` does.
-/

namespace GenieAcs

/-- A row of the table; a device always has its id. -/
structure Row where
  value : Lookup
  deviceId : value (js "DeviceID.ID") ≠ none
  id : value (js "_id") ≠ none

/-- A literal that is no boolean. -/
def Value.IsScalar (v : Value) : Prop := ∀ b, v ≠ .bool b

inductive Leaf where
  | param (p : JsString)
  | reversed (op : CompareOp) (s p : JsString)
  | compare (p : JsString) (op : CompareOp) (v : Value)
  | isNull (p : JsString)

namespace Leaf

def clause : Leaf → Clause
  | param p => .exp (.ofParam p)
  | reversed op s p => .exp (.app op.toOp [.lit (some (.str s)), .ofParam p])
  | compare p op v => .compare (.exp (.ofParam p)) op v
  | isNull p => .isNull (.exp (.ofParam p))

/-- The expression that names the variable. -/
def key : Leaf → Expr
  | param p => .ofParam p
  | reversed op s p => .app op.toOp [.lit (some (.str s)), .ofParam p]
  | compare p op v => .app op.toOp [.ofParam p, .lit (some v)]
  | isNull p => .app .isNull [.ofParam p]

/-- The truth value on a row. -/
def truth (obj : Lookup) : Leaf → Option Bool
  | param p => GenieAcs.truth (obj p)
  | reversed op s p => compareTruth op.toOp (some (.str s)) (obj p)
  | compare p op v => compareTruth op.toOp (obj p) (some v)
  | isNull p => some (decide (obj p = none))

/-- The parameter the leaf is about. -/
def name : Leaf → JsString
  | param p => p
  | reversed _ _ p => p
  | compare p _ _ => p
  | isNull p => p

def IsNullTest : Leaf → Prop
  | isNull _ => True
  | _ => False

/-- The leaf compares with no boolean. -/
def Scalar : Leaf → Prop
  | compare _ _ v => v.IsScalar
  | _ => True

/-- The parameter whose being null makes the leaf null. -/
def nullables : Leaf → List (Bool × Clause)
  | param p => [(true, .exp (.ofParam p))]
  | reversed _ _ p => [(false, .exp (.ofParam p))]
  | compare p _ _ => [(false, .exp (.ofParam p))]
  | isNull _ => []

theorem toOp_injective {op op' : CompareOp} (h : op.toOp = op'.toOp) : op = op' := by
  cases op <;> cases op' <;> first | rfl | cases h

theorem toOp_ne (op : CompareOp) : op.toOp ≠ .param ∧ op.toOp ≠ .isNull := by
  cases op <;> decide

theorem key_injective {l l' : Leaf} (h : l.key = l'.key) : l = l' := by
  cases l with
  | param p =>
      cases l' <;> simp only [key, Expr.ofParam, Expr.app.injEq] at h
      case param => simp_all
      case reversed => exact absurd h.1.symm (toOp_ne _).1
      case compare => exact absurd h.1.symm (toOp_ne _).1
      case isNull => cases h.1
  | reversed op s p =>
      cases l' <;> simp only [key, Expr.ofParam, Expr.app.injEq] at h
      case param => exact absurd h.1 (toOp_ne _).1
      case reversed => rw [toOp_injective h.1]; simp_all
      case compare => simp at h
      case isNull => exact absurd h.1 (toOp_ne _).2
  | compare p op v =>
      cases l' <;> simp only [key, Expr.ofParam, Expr.app.injEq] at h
      case param => exact absurd h.1 (toOp_ne _).1
      case reversed => simp at h
      case compare => rw [toOp_injective h.1]; simp_all
      case isNull => exact absurd h.1 (toOp_ne _).2
  | isNull p =>
      cases l' <;> simp only [key, Expr.ofParam, Expr.app.injEq] at h
      case param => cases h.1
      case reversed => exact absurd h.1.symm (toOp_ne _).2
      case compare => exact absurd h.1.symm (toOp_ne _).2
      case isNull => simp_all

/-- A leaf other than a null test is null exactly when its parameter is. -/
theorem truth_eq_none {l : Leaf} (h : ¬ l.IsNullTest) (obj : Lookup) :
    l.truth obj = none ↔ obj l.name = none := by
  cases l with
  | param p => exact GenieAcs.truth_eq_none
  | reversed op s p => simp only [truth, name]; cases obj p <;> simp [compareTruth]
  | compare p op v => simp only [truth, name]; cases obj p <;> simp [compareTruth]
  | isNull p => exact absurd trivial h

end Leaf

/-! ## Contexts of leaves -/

def ofLeaves (ls : List Leaf) : SynthContext := ⟨ls.map fun l => (l.key, l.clause)⟩

structure Good (ls : List Leaf) : Prop where
  nodup : ls.Nodup
  scalar : ∀ l ∈ ls, l.Scalar

theorem Good.nil : Good [] := ⟨List.nodup_nil, by simp⟩

theorem getClause_ofLeaves {ls : List Leaf} {v : Nat} {l : Leaf} (h : ls[v]? = some l) :
    (ofLeaves ls).getClause v = some l.clause := by
  simp [SynthContext.getClause, ofLeaves, h]

/-- The computation returns in a context of leaves that has grown. -/
def Runs {α : Type} (x : SynthM α) (ls : List Leaf) (post : α → List Leaf → Prop) : Prop :=
  Returns x (ofLeaves ls) fun a Γ =>
    ∃ ls', Γ = ofLeaves ls' ∧ ls <+: ls' ∧ Good ls' ∧ post a ls'

namespace Runs

variable {α β : Type} {x : SynthM α} {ls : List Leaf}

theorem pure (hg : Good ls) {a : α} {post : α → List Leaf → Prop} (h : post a ls) :
    Runs (Pure.pure a) ls post :=
  Returns.pure ⟨ls, rfl, List.prefix_rfl, hg, h⟩

theorem mono {post post' : α → List Leaf → Prop} (h : Runs x ls post)
    (himp : ∀ a ls', ls <+: ls' → Good ls' → post a ls' → post' a ls') : Runs x ls post' := by
  refine Returns.mono h ?_
  rintro a _ ⟨ls', rfl, hpre, hg, hp⟩
  exact ⟨ls', rfl, hpre, hg, himp a ls' hpre hg hp⟩

theorem bind {f : α → SynthM β} {post : α → List Leaf → Prop} {post' : β → List Leaf → Prop}
    (hx : Runs x ls post)
    (hf : ∀ a ls', ls <+: ls' → Good ls' → post a ls' → Runs (f a) ls' post') :
    Runs (x >>= f) ls post' := by
  refine Returns.bind hx ?_
  rintro a _ ⟨ls', rfl, hpre, hg, hp⟩
  refine Returns.mono (hf a ls' hpre hg hp) ?_
  rintro b _ ⟨ls'', rfl, hpre', hg', hp'⟩
  exact ⟨ls'', rfl, hpre.trans hpre', hg', hp'⟩

theorem lift_bind {y : Except JsError α} {f : α → SynthM β} {a : α}
    {post : β → List Leaf → Prop} (hy : y = .ok a) (h : Runs (f a) ls post) :
    Runs (liftM y >>= f) ls post :=
  Returns.lift_bind hy h

theorem get_bind {f : SynthContext → SynthM β} {post : β → List Leaf → Prop}
    (h : Runs (f (ofLeaves ls)) ls post) : Runs (MonadState.get >>= f) ls post :=
  Returns.get_bind h

/-- Going through a list, when what a result satisfies stays true in larger
contexts. -/
theorem mapM {g : α → SynthM β} {post : α → β → List Leaf → Prop}
    (hkeep : ∀ a b ls ls', post a b ls → ls <+: ls' → post a b ls') :
    ∀ {as : List α} {ls : List Leaf}, Good ls →
      (∀ a ∈ as, ∀ ls', ls <+: ls' → Good ls' → Runs (g a) ls' (post a)) →
      Runs (as.mapM g) ls fun bs ls' => List.Forall₂ (fun a b => post a b ls') as bs := by
  intro as
  induction as with
  | nil =>
      intro ls hg _
      rw [List.mapM_nil]
      exact pure hg List.Forall₂.nil
  | cons a as ih =>
      intro ls hg h
      rw [List.mapM_cons]
      refine bind (h a (List.mem_cons_self ..) ls List.prefix_rfl hg) fun b ls₁ hpre hg₁ hb => ?_
      refine bind (ih hg₁ fun a' ha' ls' hpre' =>
        h a' (List.mem_cons_of_mem _ ha') ls' (hpre.trans hpre')) fun bs ls₂ hpre₂ hg₂ hbs => ?_
      exact pure hg₂ (List.Forall₂.cons (hkeep _ _ _ _ hb hpre₂) hbs)

end Runs

theorem getElem?_grow {α : Type} {ls ls' : List α} (hpre : ls <+: ls') {v : Nat} {l : α}
    (h : ls[v]? = some l) : ls'[v]? = some l := by
  obtain ⟨rest, rfl⟩ := hpre
  rw [List.getElem?_append_left (List.getElem?_eq_some_iff.mp h).1, h]

/-! ## What the methods answer on leaves -/

structure LeafMethods (m : Methods) : Prop where
  expression : ∀ l : Leaf, m.expression l.clause = .ok l.key
  getNullables : ∀ l : Leaf, m.getNullables l.clause = .ok l.nullables

theorem findIsNullDeps_param (p : JsString) :
    findIsNullDeps (.ofParam p) = [.ofParam p] := by
  simp [findIsNullDeps, Expr.ofParam]

theorem findIsNullDeps_reversed (op : CompareOp) (s p : JsString) :
    findIsNullDeps (.app op.toOp [.lit (some (.str s)), .ofParam p]) = [.ofParam p] := by
  cases op <;>
    simp [findIsNullDeps, depsBetween, findIsNullDeps_param, CompareOp.toOp]

theorem getNullables_exp (E : Env) (n : Nat) (e : Expr) :
    (methods E (n + 2)).getNullables (.exp e)
      = .ok ((findIsNullDeps e).map fun d =>
          if d = e then (true, Clause.exp e) else (false, Clause.exp d)) := rfl

theorem getNullables_param (E : Env) (n : Nat) (p : JsString) :
    (methods E (n + 2)).getNullables (.exp (.ofParam p))
      = .ok [(true, .exp (.ofParam p))] := by
  rw [getNullables_exp, findIsNullDeps_param]
  simp

theorem leafMethods (E : Env) (n : Nat) : LeafMethods (methods E (n + 3)) := by
  refine ⟨fun l => ?_, fun l => ?_⟩
  · cases l with
    | param p => rfl
    | reversed op s p => rfl
    | compare p op v => rfl
    | isNull p =>
        change ((methods E (n + 2)).getNullables (.exp (.ofParam p)) >>= _) = _
        rw [getNullables_param]
        rfl
  · cases l with
    | param p => exact getNullables_param E (n + 1) p
    | reversed op s p =>
        rw [Leaf.clause, getNullables_exp, findIsNullDeps_reversed]
        cases op <;> rfl
    | compare p op v =>
        change ((methods E (n + 2)).getNullables (.exp (.ofParam p)) >>= _) = _
        rw [getNullables_param]
        rfl
    | isNull p => rfl

section

variable {self : Methods} {ls : List Leaf}

theorem findIdx_ofLeaves (ls : List Leaf) (l : Leaf) :
    ((ofLeaves ls).clauses.findIdx? fun entry => entry.1 = l.key)
      = ls.findIdx? fun l' => l'.key = l.key := by
  simp [ofLeaves, List.findIdx?_map, Function.comp_def]

/-- A leaf is found in the context, or becomes its next variable. -/
theorem getVar_spec (hm : LeafMethods self) (hg : Good ls) {l : Leaf} (hl : l.Scalar) :
    Runs (self.getVar l.clause) ls fun v ls' => ls'[v]? = some l := by
  unfold Methods.getVar
  refine Runs.lift_bind (hm.expression l) (Runs.get_bind ?_)
  rw [findIdx_ofLeaves]
  cases hfind : ls.findIdx? fun l' => l'.key = l.key with
  | none =>
      have hnew : l ∉ ls := by
        intro hmem
        have := List.findIdx?_eq_none_iff.mp hfind l hmem
        simp at this
      have hset : (⟨(ofLeaves ls).clauses ++ [(l.key, l.clause)]⟩ : SynthContext)
          = ofLeaves (ls ++ [l]) := by simp [ofLeaves]
      have hg' : Good (ls ++ [l]) :=
        ⟨List.nodup_append.mpr ⟨hg.nodup, List.nodup_singleton l, by
            rintro x hx _ hy rfl
            exact hnew (List.mem_singleton.mp hy ▸ hx)⟩,
          List.forall_mem_append.mpr ⟨hg.scalar, by simpa using hl⟩⟩
      rw [hset]
      refine ⟨ls.length, ofLeaves (ls ++ [l]), ?_, _, rfl, List.prefix_append .., hg', ?_⟩
      · simp [ofLeaves]
        rfl
      · simp
  | some v =>
      obtain ⟨hv, hkey, _⟩ := List.findIdx?_eq_some_iff_getElem.mp hfind
      refine Runs.pure hg ?_
      rw [List.getElem?_eq_getElem hv, Leaf.key_injective (of_decide_eq_true hkey)]

/-- The null test a leaf depends on. -/
theorem isNullVars_spec (hm : LeafMethods self) (hg : Good ls) {l : Leaf}
    (hl : ¬ l.IsNullTest) :
    Runs (self.isNullVars l.clause) ls fun ns ls' =>
      ∃ n, ns = [n] ∧ ls'[n]? = some (.isNull l.name) := by
  have hvar := getVar_spec hm hg (l := .isNull l.name) trivial
  unfold Methods.isNullVars
  refine Runs.lift_bind (hm.getNullables l) ?_
  have hone : ∃ b, l.nullables = [(b, .exp (.ofParam l.name))] := by
    cases l <;> first | exact ⟨_, rfl⟩ | exact absurd trivial hl
  obtain ⟨b, hone⟩ := hone
  rw [hone, List.mapM_cons, List.mapM_nil]
  refine Runs.bind hvar fun n ls' _ hg' hn => ?_
  exact Runs.pure hg' ⟨n, rfl, hn⟩

theorem isNullVars_isNull (hm : LeafMethods self) (hg : Good ls) (p : JsString) :
    Runs (self.isNullVars (Leaf.isNull p).clause) ls fun ns _ => ns = [] := by
  unfold Methods.isNullVars
  refine Runs.lift_bind (hm.getNullables (.isNull p)) ?_
  exact Runs.pure hg rfl

end

/-! ## What minterms say -/

/-- The valuation is the one of the row. -/
def Agrees (row : Row) (ν : Nat → Bool) (ls : List Leaf) : Prop :=
  ∀ v l, ls[v]? = some l →
    ν (2 * v + 1) = decide (l.truth row.value = some true)
      ∧ ν (2 * v) = decide (l.truth row.value = some false)

theorem Agrees.shrink {row : Row} {ν : Nat → Bool} {ls ls' : List Leaf} (h : Agrees row ν ls')
    (hpre : ls <+: ls') : Agrees row ν ls :=
  fun v l hv => h v l (getElem?_grow hpre hv)

/-- Every row has a valuation. -/
theorem exists_agrees (row : Row) (ls : List Leaf) : ∃ ν, Agrees row ν ls := by
  refine ⟨fun x => match ls[x / 2]? with
    | some l => decide (l.truth row.value = some (decide (x % 2 = 1)))
    | none => false, fun v l hv => ?_⟩
  have h1 : (2 * v + 1) / 2 = v := by omega
  have h2 : (2 * v + 1) % 2 = 1 := by omega
  have h3 : 2 * v / 2 = v := by omega
  have h4 : 2 * v % 2 = 0 := by omega
  simp only [h1, h2, h3, h4, hv]
  exact ⟨rfl, rfl⟩

section

open Cover

variable {row : Row} {ν : Nat → Bool} {ls : List Leaf} {v : Nat} {l : Leaf}

theorem holds_three (h : Agrees row ν ls) (hv : ls[v]? = some l) :
    Holds ν (literal v 3) ↔ l.truth row.value = some true := by
  have h1 : (4 * v + 3) / 2 = 2 * v + 1 := by omega
  have h2 : (4 * v + 3) % 2 = 1 := by omega
  simp [Holds, literal, h1, h2, (h v l hv).1]

theorem holds_two (h : Agrees row ν ls) (hv : ls[v]? = some l) :
    Holds ν (literal v 2) ↔ l.truth row.value ≠ some true := by
  have h1 : (4 * v + 2) / 2 = 2 * v + 1 := by omega
  have h2 : (4 * v + 2) % 2 = 0 := by omega
  simp [Holds, literal, h1, h2, (h v l hv).1]

theorem holds_one (h : Agrees row ν ls) (hv : ls[v]? = some l) :
    Holds ν (literal v 1) ↔ l.truth row.value = some false := by
  have h1 : (4 * v + 1) / 2 = 2 * v := by omega
  have h2 : (4 * v + 1) % 2 = 1 := by omega
  simp [Holds, literal, h1, h2, (h v l hv).2]

theorem holds_zero (h : Agrees row ν ls) (hv : ls[v]? = some l) :
    Holds ν (literal v 0) ↔ l.truth row.value ≠ some false := by
  have h1 : 4 * v / 2 = 2 * v := by omega
  have h2 : 4 * v % 2 = 0 := by omega
  simp [Holds, literal, h1, h2, (h v l hv).2]

end

/-- The Boolean variable belongs to a leaf; of a null test there is only
whether it is true. -/
def VarOk (ls : List Leaf) (x : Nat) : Prop :=
  ∃ l, ls[x / 2]? = some l ∧ (l.IsNullTest → x % 2 = 1)

theorem VarOk.grow {ls ls' : List Leaf} {x : Nat} (h : VarOk ls x) (hpre : ls <+: ls') :
    VarOk ls' x := by
  obtain ⟨l, hl, hx⟩ := h
  exact ⟨l, getElem?_grow hpre hl, hx⟩

def VarsOk (ls : List Leaf) (ms : Minterms) : Prop := ∀ x ∈ Cover.vars ms, VarOk ls x

/-- The row decides every variable of a leaf. -/
theorem Agrees.unique {ls : List Leaf} {row : Row} {ν ν' : Nat → Bool} (h : Agrees row ν ls)
    (h' : Agrees row ν' ls) {x : Nat} (hx : VarOk ls x) : ν x = ν' x := by
  obtain ⟨l, hl, _⟩ := hx
  obtain ⟨hodd, heven⟩ := h _ _ hl
  obtain ⟨hodd', heven'⟩ := h' _ _ hl
  rcases Nat.mod_two_eq_zero_or_one x with hmod | hmod
  · have hx : x = 2 * (x / 2) := by omega
    rw [hx, heven, heven']
  · have hx : x = 2 * (x / 2) + 1 := by omega
    rw [hx, hodd, hodd']

/-- On every row the minterms hold exactly if `P` does. -/
structure Denotes (ls : List Leaf) (ms : Minterms) (P : Row → Prop) : Prop where
  vars : VarsOk ls ms
  sat : ∀ row ν, Agrees row ν ls → (Cover.Sat (Cover.Holds ν) ms ↔ P row)

/-- Minterms over leaves say something about the rows. -/
theorem exists_denotes {ls : List Leaf} {ms : Minterms} (h : VarsOk ls ms) :
    ∃ P, Denotes ls ms P := by
  refine ⟨fun row => ∃ ν, Agrees row ν ls ∧ Cover.Sat (Cover.Holds ν) ms, h, ?_⟩
  intro row ν ha
  constructor
  · exact fun hs => ⟨ν, ha, hs⟩
  · rintro ⟨ν', ha', hs⟩
    refine (Cover.sat_congr ?_).mp hs
    intro m hm l hl
    rw [Cover.Holds, Cover.Holds, ha'.unique ha (h _ (Cover.mem_vars.mpr ⟨m, hm, l, hl, rfl⟩))]

namespace Denotes

variable {ls ls' : List Leaf} {ms ms' : Minterms} {P Q : Row → Prop} {E : Env}

theorem grow (h : Denotes ls ms P) (hpre : ls <+: ls') : Denotes ls' ms P :=
  ⟨fun x hx => (h.vars x hx).grow hpre, fun row ν ha => h.sat row ν (ha.shrink hpre)⟩

theorem congr (h : Denotes ls ms P) (hPQ : ∀ row, P row ↔ Q row) : Denotes ls ms Q :=
  ⟨h.vars, fun row ν ha => (h.sat row ν ha).trans (hPQ row)⟩

theorem nothing : Denotes ls [] fun _ => False :=
  ⟨by simp [VarsOk, Cover.vars], fun _ _ _ => by simp⟩

theorem everything : Denotes ls [[]] fun _ => True :=
  ⟨by simp [VarsOk, Cover.vars], fun _ _ _ => by simp⟩

theorem append (h : Denotes ls ms P) (h' : Denotes ls ms' Q) :
    Denotes ls (ms ++ ms') fun row => P row ∨ Q row := by
  refine ⟨fun x hx => ?_, fun row ν ha => ?_⟩
  · rw [Cover.vars_append, List.mem_append] at hx
    exact hx.elim (h.vars x) (h'.vars x)
  · rw [Cover.sat_append, h.sat row ν ha, h'.sat row ν ha]

theorem complement (hM : E.M.Exact) (h : Denotes ls ms P) :
    Denotes ls (E.M.complement ms) fun row => ¬ P row :=
  ⟨fun x hx => h.vars x (hM.complement_vars ms hx),
    fun row ν ha => by rw [hM.complement, h.sat row ν ha]⟩

/-- The minterms of a list of covers hold if those of one cover do. -/
theorem flatten {α : Type} {as : List α} {mss : List Minterms} {R : α → Row → Prop}
    (h : List.Forall₂ (fun a ms => Denotes ls ms (R a)) as mss) :
    Denotes ls mss.flatten fun row => ∃ a ∈ as, R a row := by
  induction h with
  | nil => exact nothing.congr fun _ => by simp
  | cons ha _ ih => exact (ha.append ih).congr fun row => by simp

end Denotes

end GenieAcs
