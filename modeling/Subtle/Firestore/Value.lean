import Subtle.Lib.Overwrite
import Mathlib.Logic.Function.Basic

/-!
# Firestore values and documents

A document gives values to some field names.  Arrays and maps nest, so equality
of values is decided by the recursion on both.

* `asStrings_strings`: an array of strings is read back as it was written.
* `arrayUnion_strings`, `arrayRemove_strings`: the two array writes on an array of
  strings.
-/

namespace Subtle.Firestore

/-- The value of a field; a timestamp in milliseconds. -/
inductive Value where
  | null
  | bool (b : Bool)
  | number (n : Int)
  | string (s : String)
  | timestamp (ms : Int)
  | array (vs : List Value)
  | map (kvs : List (String × Value))

namespace Value

mutual

def decEq : (a b : Value) → Decidable (a = b)
  | null, null => isTrue rfl
  | bool a, bool b => decidable_of_iff (a = b) (by simp)
  | number a, number b => decidable_of_iff (a = b) (by simp)
  | string a, string b => decidable_of_iff (a = b) (by simp)
  | timestamp a, timestamp b => decidable_of_iff (a = b) (by simp)
  | array a, array b => @decidable_of_iff _ (a = b) (by simp) (decEqList a b)
  | map a, map b => @decidable_of_iff _ (a = b) (by simp) (decEqMap a b)
  | null, bool _ | null, number _ | null, string _ | null, timestamp _ | null, array _
  | null, map _ | bool _, null | bool _, number _ | bool _, string _ | bool _, timestamp _
  | bool _, array _ | bool _, map _ | number _, null | number _, bool _ | number _, string _
  | number _, timestamp _ | number _, array _ | number _, map _ | string _, null
  | string _, bool _ | string _, number _ | string _, timestamp _ | string _, array _
  | string _, map _ | timestamp _, null | timestamp _, bool _ | timestamp _, number _
  | timestamp _, string _ | timestamp _, array _ | timestamp _, map _ | array _, null
  | array _, bool _ | array _, number _ | array _, string _ | array _, timestamp _
  | array _, map _ | map _, null | map _, bool _ | map _, number _ | map _, string _
  | map _, timestamp _ | map _, array _ => isFalse (by simp)

def decEqList : (a b : List Value) → Decidable (a = b)
  | [], [] => isTrue rfl
  | a :: as, b :: bs =>
      have := decEq a b
      have := decEqList as bs
      decidable_of_iff (a = b ∧ as = bs) (by simp)
  | [], _ :: _ | _ :: _, [] => isFalse (by simp)

def decEqMap : (a b : List (String × Value)) → Decidable (a = b)
  | [], [] => isTrue rfl
  | (k, a) :: as, (l, b) :: bs =>
      have := decEq a b
      have := decEqMap as bs
      decidable_of_iff (k = l ∧ a = b ∧ as = bs) (by simp [and_assoc])
  | [], _ :: _ | _ :: _, [] => isFalse (by simp)

end

instance : DecidableEq Value := decEq

end Value

/-- The fields of a document. -/
abbrev Document := Lib.Record String Value

/-- The fields of a document, written out. -/
abbrev Fields := List (String × Value)

def Fields.document (fields : Fields) : Document := fun k => fields.lookup k

/-- `document.field = value`. -/
def assign (document : Document) (field : String) (value : Value) : Document :=
  Function.update document field (some value)

@[simp] theorem assign_self (document : Document) (field : String) (value : Value) :
    assign document field value field = some value := Function.update_self field _ _

theorem assign_of_ne {field k : String} (h : k ≠ field) (document : Document) (value : Value) :
    assign document field value k = document k := Function.update_of_ne h _ _

namespace Value

def strings (ss : List String) : Value := array (ss.map string)

def asString : Value → Option String
  | string s => some s
  | _ => none

def asTimestamp : Value → Option Int
  | timestamp ms => some ms
  | _ => none

/-- The strings of an array that has nothing else. -/
def asStrings : Value → Option (List String)
  | array vs => vs.mapM asString
  | _ => none

@[simp] theorem asStrings_strings (ss : List String) : (strings ss).asStrings = some ss := by
  show (ss.map string).mapM asString = some ss
  induction ss with
  | nil => rfl
  | cons s ss ih => simp [List.mapM_cons, ih, asString]

theorem asString_eq_some {v : Value} {s : String} (h : v.asString = some s) : v = string s := by
  cases v with
  | string s' => exact congrArg string (Option.some.inj h)
  | _ => exact absurd h (by simp [asString])

theorem asTimestamp_eq_some {v : Value} {ms : Int} (h : v.asTimestamp = some ms) :
    v = timestamp ms := by
  cases v with
  | timestamp ms' => exact congrArg timestamp (Option.some.inj h)
  | _ => exact absurd h (by simp [asTimestamp])

theorem mapM_asString_eq_some {vs : List Value} {ss : List String}
    (h : vs.mapM asString = some ss) : vs = ss.map string := by
  induction vs generalizing ss with
  | nil =>
    obtain rfl := Option.some.inj h
    rfl
  | cons v vs ih =>
    rw [List.mapM_cons] at h
    obtain ⟨s, hs, h⟩ := Option.bind_eq_some_iff.mp h
    obtain ⟨rest, hrest, h⟩ := Option.bind_eq_some_iff.mp h
    obtain rfl := Option.some.inj h
    rw [List.map_cons, asString_eq_some hs, ih hrest]

theorem asStrings_eq_some {v : Value} {ss : List String} (h : v.asStrings = some ss) :
    v = strings ss := by
  cases v with
  | array vs => exact congrArg array (mapM_asString_eq_some h)
  | _ => exact absurd h (by simp [asStrings])

/-- `FieldValue.arrayUnion`: the value is added to the array unless it is there. -/
def arrayUnion (field : Option Value) (value : Value) : Value :=
  match field with
  | some (array vs) => array (if value ∈ vs then vs else vs ++ [value])
  | _ => array [value]

/-- `FieldValue.arrayRemove`: every occurrence of the value is removed. -/
def arrayRemove (field : Option Value) (value : Value) : Value :=
  match field with
  | some (array vs) => array (vs.filter fun v => decide (v ≠ value))
  | _ => array []

theorem arrayUnion_strings (ss : List String) (s : String) :
    arrayUnion (some (strings ss)) (string s) = strings (if s ∈ ss then ss else ss ++ [s]) := by
  by_cases hs : s ∈ ss
  · simp [arrayUnion, strings, hs]
  · simp [arrayUnion, strings, hs]

theorem arrayRemove_strings (ss : List String) (s : String) :
    arrayRemove (some (strings ss)) (string s) =
      strings (ss.filter fun t => decide (t ≠ s)) := by
  have hsame : ((fun v => decide (v ≠ string s)) ∘ string) = fun t => decide (t ≠ s) := by
    funext t
    simp
  simp only [arrayRemove, strings, List.filter_map, hsame]

end Value

end Subtle.Firestore
