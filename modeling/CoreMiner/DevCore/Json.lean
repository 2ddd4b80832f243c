/-
  CoreMiner.DevCore.Json — the values of the JSON library the pool clients and the API use
  (jsoncpp's `Json::Value`) and the accessors they call on them, with the exception
  (`Json::LogicError`) each raises on a value of the wrong kind.

  An integer outside the library's 64-bit types is a `real`; a `real` carries its exact
  value (`none`: out of the range of `double`) and the text `asString` prints for it.
  The non-const `operator[]`, which adds a null member where there is none, is `at_`: an
  added null member reads like a missing one wherever the clients look again.
-/

import CoreMiner.DevCore.Hex

namespace CoreMiner.DevCore

inductive Json where
  | null
  | bool (b : Bool)
  | int (i : Int)
  | real (value : Option Rat) (text : String)
  | str (s : String)
  | arr (l : List Json)
  | obj (l : List (String × Json))

namespace Json

def isNull : Json → Bool
  | null => true
  | _ => false

def isBool : Json → Bool
  | bool _ => true
  | _ => false

def isString : Json → Bool
  | str _ => true
  | _ => false

def isArray : Json → Bool
  | arr _ => true
  | _ => false

def isObject : Json → Bool
  | obj _ => true
  | _ => false

def isConvertibleToString : Json → Bool
  | arr _ | obj _ => false
  | _ => true

def isConvertibleToObject (j : Json) : Bool := j.isObject || j.isNull

def size : Json → Nat
  | arr l => l.length
  | obj l => l.length
  | _ => 0

/-- `empty()`: null, `[]` and `{}` (a scalar is never empty, not even `""`). -/
def empty : Json → Bool
  | null => true
  | arr l => l.isEmpty
  | obj l => l.isEmpty
  | _ => false

def find : Json → String → Except StdException (Option Json)
  | obj l, key => .ok ((l.find? fun m => m.1 == key).map (·.2))
  | null, _ => .ok none
  | _, _ => .error .logicError

def isMember (j : Json) (key : String) : Except StdException Bool := (j.find key).map (·.isSome)

def get (j : Json) (key : String) (dflt : Json) : Except StdException Json := (j.find key).map (·.getD dflt)

def at_ (j : Json) (key : String) : Except StdException Json := j.get key null

def getIdx : Json → Nat → Json → Except StdException Json
  | arr l, i, dflt => .ok (l.getD i dflt)
  | null, _, dflt => .ok dflt
  | _, _, _ => .error .logicError

def asString : Json → Except StdException String
  | null => .ok ""
  | str s => .ok s
  | bool b => .ok (if b then "true" else "false")
  | int i => .ok (toString i)
  | real _ text => .ok text
  | arr _ | obj _ => .error .logicError

def asUInt : Json → Except StdException Nat
  | null => .ok 0
  | bool b => .ok (if b then 1 else 0)
  | int i => if 0 ≤ i ∧ i < 2 ^ 32 then .ok i.toNat else .error .logicError
  | real (some q) _ => if 0 ≤ q ∧ q ≤ 2 ^ 32 - 1 then .ok q.floor.toNat else .error .logicError
  | real none _ => .error .logicError
  | str _ | arr _ | obj _ => .error .logicError

/-- `asUInt64()`. The largest `double` that passes has no defined value; it is 0 here. -/
def asUInt64 : Json → Except StdException UInt64
  | null => .ok 0
  | bool b => .ok (if b then 1 else 0)
  | int i => if 0 ≤ i ∧ i < 2 ^ 64 then .ok (UInt64.ofNat i.toNat) else .error .logicError
  | real (some q) _ => if 0 ≤ q ∧ q ≤ 2 ^ 64 then .ok (UInt64.ofNat q.floor.toNat) else .error .logicError
  | real none _ => .error .logicError
  | str _ | arr _ | obj _ => .error .logicError

/-- `asDouble()`, called on finite numbers only. -/
def asDouble : Json → Rat
  | int i => i
  | real (some q) _ => q
  | bool b => if b then 1 else 0
  | _ => 0

/-- `isUInt()`: an integer of 32 bits, however it is written. -/
def isUInt : Json → Bool
  | int i => 0 ≤ i ∧ i < 2 ^ 32
  | real (some q) _ => 0 ≤ q ∧ q ≤ 2 ^ 32 - 1 ∧ q.den = 1
  | _ => false

def isConvertibleToBool : Json → Bool
  | str _ | arr _ | obj _ => false
  | _ => true

/-- `asBool()`, called on values that convert only. -/
def asBool : Json → Bool
  | bool b => b
  | int i => i ≠ 0
  | real value _ => value ≠ some 0
  | _ => false

/-- Is the value the string `s` (`operator==` with a string)? -/
def isStr (j : Json) (s : String) : Bool :=
  match j with
  | str t => t == s
  | _ => false

/-- The element `i` of a parameter array, as text. -/
def strIdx (j : Json) (i : Nat) : Except StdException String := do
  let x ← j.getIdx i (str "")
  x.asString

def strKey (j : Json) (key : String) (dflt : String) : Except StdException String := do
  let x ← j.get key (str dflt)
  x.asString

/-! ## Building objects -/

def member : Json → String → Option Json
  | obj l, key => (l.find? fun m => m.1 == key).map (·.2)
  | _, _ => none

/-- `(*this)[key] = v`, called on null and on objects only. -/
def set : Json → String → Json → Json
  | obj l, key, v =>
    obj (if l.any (·.1 == key) then l.map fun m => if m.1 == key then (key, v) else m else l ++ [(key, v)])
  | null, key, v => obj [(key, v)]
  | j, _, _ => j

theorem find?_replace (l : List (String × Json)) (key key' : String) (v : Json) :
    ((l.map fun m => if m.1 == key then (key, v) else m).find? fun m => m.1 == key') =
      if key' = key then (l.find? fun m => m.1 == key).map fun _ => (key, v) else l.find? fun m => m.1 == key' := by
  induction l with
  | nil => simp
  | cons m l ih =>
    rw [List.map_cons, List.find?_cons, List.find?_cons, List.find?_cons, ih]
    by_cases hm : m.1 = key
    · by_cases hk : key' = key
      · simp [hm, hk]
      · have hne : (key == key') = false := beq_false_of_ne (Ne.symm hk)
        simp [hm, hk, hne]
    · have hne : (m.1 == key) = false := beq_false_of_ne hm
      by_cases hk : key' = key
      · simp [hne, hk]
      · simp [hne, hk]

def isOpen (j : Json) : Bool := j.isNull || j.isObject

theorem set_isOpen {j : Json} (h : j.isOpen = true) (key : String) (v : Json) : (j.set key v).isOpen = true := by
  cases j <;> first | rfl | cases h

theorem member_set {j : Json} (h : j.isOpen = true) (key key' : String) (v : Json) :
    (j.set key v).member key' = if key' = key then some v else j.member key' := by
  cases j with
  | null =>
    by_cases hk : key' = key
    · simp [set, member, hk]
    · simp [set, member, hk, Ne.symm hk]
  | obj l =>
    simp only [set, member]
    by_cases hany : l.any (·.1 == key) = true
    · rw [if_pos hany, find?_replace]
      by_cases hk : key' = key
      · obtain ⟨m, hm, hkey⟩ := List.any_eq_true.mp hany
        have hsome : (l.find? fun m => m.1 == key).isSome = true := List.find?_isSome.mpr ⟨m, hm, hkey⟩
        obtain ⟨m', hm'⟩ := Option.isSome_iff_exists.mp hsome
        simp [hk, hm']
      · rw [if_neg hk, if_neg hk]
    · have hnone : (l.find? fun m => m.1 == key) = none := by
        rw [List.find?_eq_none]
        intro m hm hkey
        exact hany (List.any_eq_true.mpr ⟨m, hm, hkey⟩)
      rw [if_neg hany, List.find?_append]
      by_cases hk : key' = key
      · simp [hk, hnone]
      · simp [hk, Ne.symm hk]
  | bool | int | real | str | arr => cases h

end Json
end CoreMiner.DevCore
