import Mathlib.Data.Nat.Digits.Lemmas
import GenieAcs.JsNumbers
import GenieAcs.JsonText
import GenieAcs.Lib.Generations

/-!
# Memoized functions

A memoized function keeps its results under a key that is made of its arguments
and of the function itself: primitives by their type and text, objects and
functions by a number that is drawn for them once. The cache is shared by all
memoized functions, and a new generation of it begins every two minutes.

Different calls have different keys, so that a call returns what it was last
computed to, and is computed if it was not made since the generation before
(`memoize_exact`).
-/

namespace GenieAcs

/-! ## Keys -/

/-- An argument; objects and functions by their identity. -/
inductive MemoArg where
  | null
  | undefined
  | number (x : JsNumber)
  | boolean (b : Bool)
  | str (s : JsString)
  | object (id : Nat)
  | function (id : Nat)
  deriving DecidableEq

/-- A call of a function with arguments. -/
abbrev MemoCall := Nat × List MemoArg

def digit36 (d : Nat) : Nat := if d < 10 then d + '0'.toNat else d - 10 + 'a'.toNat

/-- `toString(36)`. -/
def text36 (n : Nat) : JsString :=
  if n = 0 then js "0" else ((Nat.digits 36 n).map digit36).reverse

section

/- The text of a number, and the number drawn for an object. -/
variable (numberText : JsNumber → JsString) (rnd : Nat → Nat)

def getKey : MemoArg → JsString
  | .null => js "null"
  | .undefined => js "undefined"
  | .number x => js "number:" ++ numberText x
  | .boolean b => js "boolean:" ++ js (toString b)
  | .str s => js "string:" ++ s
  | .object id => js "object:" ++ text36 (rnd id)
  | .function id => js "function:" ++ text36 (rnd id)

def jsonRest : List JsString → JsString
  | [] => js "]"
  | s :: list => js "," ++ (jsonString s ++ jsonRest list)

/-- `JSON.stringify` of a list of strings. -/
def jsonStrings : List JsString → JsString
  | [] => js "[]"
  | s :: list => js "[" ++ (jsonString s ++ jsonRest list)

def memoKey (call : MemoCall) : JsString :=
  jsonStrings (call.2.map (getKey numberText rnd)) ++ getKey numberText rnd (.function call.1)

/-! ## Different calls have different keys -/

theorem digitValue_digit36 {d : Nat} (h : d < 36) : JsNumber.digitValue (digit36 d) = d := by
  revert h
  revert d
  decide

/-- What the digits of a text stand for. -/
theorem ofDigits_text36 (n : Nat) :
    Nat.ofDigits 36 ((text36 n).reverse.map JsNumber.digitValue) = n := by
  rw [text36]
  split_ifs with h
  · rw [h]
    rfl
  · rw [List.reverse_reverse, List.map_map]
    have hid : (Nat.digits 36 n).map (JsNumber.digitValue ∘ digit36) = (Nat.digits 36 n).map id :=
      List.map_congr_left fun d hd => digitValue_digit36 (Nat.digits_lt_base (by decide) hd)
    rw [hid, List.map_id, Nat.ofDigits_digits]

theorem text36_injective : Function.Injective text36 := fun m n h => by
  rw [← ofDigits_text36 m, h, ofDigits_text36]

theorem jsonRest_append_inj {l m : List JsString} {u v : JsString}
    (h : jsonRest l ++ u = jsonRest m ++ v) : l = m ∧ u = v := by
  induction l generalizing m with
  | nil =>
      cases m with
      | nil => exact ⟨rfl, List.append_cancel_left h⟩
      | cons t m => simp [jsonRest, js] at h
  | cons s l ih =>
      cases m with
      | nil => simp [jsonRest, js] at h
      | cons t m =>
          simp only [jsonRest, List.append_assoc, List.append_cancel_left_eq] at h
          obtain ⟨rfl, hrest⟩ := jsonString_append_inj h
          obtain ⟨rfl, rfl⟩ := ih hrest
          exact ⟨rfl, rfl⟩

theorem jsonStrings_append_inj {l m : List JsString} {u v : JsString}
    (h : jsonStrings l ++ u = jsonStrings m ++ v) : l = m ∧ u = v := by
  cases l with
  | nil =>
      cases m with
      | nil => exact ⟨rfl, List.append_cancel_left h⟩
      | cons t m => simp [jsonStrings, jsonString, js] at h
  | cons s l =>
      cases m with
      | nil => simp [jsonStrings, jsonString, js] at h
      | cons t m =>
          simp only [jsonStrings, List.append_assoc, List.append_cancel_left_eq] at h
          obtain ⟨rfl, hrest⟩ := jsonString_append_inj h
          obtain ⟨rfl, rfl⟩ := jsonRest_append_inj hrest
          exact ⟨rfl, rfl⟩

variable {numberText rnd}

theorem getKey_injective (hnumber : Function.Injective numberText)
    (hrnd : Function.Injective rnd) : Function.Injective (getKey numberText rnd) := by
  intro a b h
  -- the types are told apart by their first letters
  cases a <;> cases b <;> first | rfl | (simp [getKey, js] at h; done) | skip
  case number.number x y => exact congrArg _ (hnumber (List.append_cancel_left h))
  case boolean.boolean x y =>
    revert h
    cases x <;> cases y <;> first | exact fun _ => rfl | (simp only [getKey]; decide)
  case str.str s t => exact congrArg _ (List.append_cancel_left h)
  case object.object i j => exact congrArg _ (hrnd (text36_injective (List.append_cancel_left h)))
  case function.function i j =>
    exact congrArg _ (hrnd (text36_injective (List.append_cancel_left h)))

theorem memoKey_injective (hnumber : Function.Injective numberText)
    (hrnd : Function.Injective rnd) : Function.Injective (memoKey numberText rnd) := by
  rintro ⟨f, args⟩ ⟨g, args'⟩ h
  obtain ⟨hargs, hfunc⟩ := jsonStrings_append_inj h
  have hkey := getKey_injective hnumber hrnd
  have hfg : f = g := MemoArg.function.inj (hkey hfunc)
  exact Prod.ext hfg (List.map_injective_iff.mpr hkey hargs)

/-! ## What a memoized call returns -/

/-- What a memoized call returns that would be computed to `v`, after some calls and new
generations and after the results of some were found to be rejected; the last event is the
first of the history. -/
def memoized {V : Type} (numberText : JsNumber → JsString) (rnd : Nat → Nat)
    (history : List (Generations.Event MemoCall V)) (call : MemoCall) (v : V) : V :=
  ((Generations.after (history.map (.mapKey (memoKey numberText rnd)))).lookup
    (memoKey numberText rnd call) v).2

/-- A call returns what it was computed to last, and is computed just when it was not made in
this generation or in the one before; a function that always returns the same may as well not
be memoized. Numbers are told apart by their texts, and no number is drawn for two objects. -/
theorem memoize_exact {V : Type} (hnumber : Function.Injective numberText)
    (hrnd : Function.Injective rnd) (history : List (Generations.Event MemoCall V))
    (call : MemoCall) (v : V) :
    memoized numberText rnd history call v
        = (if Generations.Fresh call history then (Generations.computed call history).getD v else v)
      ∧ ((∀ v', .lookup call v' ∈ history → v' = v) →
        memoized numberText rnd history call v = v) := by
  have hkey := memoKey_injective hnumber hrnd
  constructor
  · rw [memoized, Generations.returned_eq, Generations.computed_map hkey]
    simp only [Generations.fresh_map hkey]
  · intro hpure
    exact Generations.returned_pure fun v' h => hpure v' (Generations.lookup_mem_map hkey h)

/-- Texts that tell numbers apart. -/
def codeOf : JsNumber → JsString
  | none => js "NaN"
  | some none => js "-Infinity"
  | some (some none) => js "Infinity"
  | some (some (some q)) => ['0'.toNat, q.num.toNat, (-q.num).toNat, q.den]

theorem codeOf_injective : Function.Injective codeOf := by
  intro x y h
  have hlength := congrArg List.length h
  rcases x with _ | _ | _ | q <;> rcases y with _ | _ | _ | r <;>
    first | rfl | (simp [codeOf, js] at hlength; done) | skip
  simp only [codeOf, List.cons.injEq, and_true, true_and] at h
  obtain ⟨hpos, hneg, hden⟩ := h
  have hnum : q.num = r.num := by omega
  exact congrArg (fun q : ℚ => some (some (some q))) (Rat.ext hnum hden)

/-- A call that was made two generations ago is computed anew, one that was made again in
between is not. -/
theorem memoize_exact_two :
    memoized codeOf id [.rotate, .lookup (0, [.str (js "b")]) 2, .rotate,
      .lookup (0, [.str (js "b")]) 2, .lookup (0, [.str (js "a")]) 1] (0, [.str (js "a")]) 3 = 3
    ∧ memoized codeOf id [.rotate, .lookup (0, [.str (js "b")]) 2, .rotate,
      .lookup (0, [.str (js "b")]) 2, .lookup (0, [.str (js "a")]) 1]
      (0, [.str (js "b")]) 3 = 2 := by
  rw [(memoize_exact codeOf_injective Function.injective_id _ _ 3).1,
    (memoize_exact codeOf_injective Function.injective_id _ _ 3).1]
  decide

end

end GenieAcs
