import VersionControl.Dict

/-!
# Values

The state of an entity, or a part of it, as a value. A value is held as a text; what that text stands for, a
number, an array or an object with members, is for a library of values to say. Absence is an `Option` around a
value.
-/

namespace VersionControl

structure Value where
  text : String
  deriving DecidableEq, Repr

/-- What a library tells of values, and the values that it makes. Nothing is assumed of it, not even that its
equality is one: numbers can be rounded to be compared, and some may not equal themselves. -/
class ValueLibrary where
  equal : Value → Value → Bool
  less : Value → Value → Bool
  isNull : Value → Bool
  string? : Value → Option String
  ofString : String → Value
  elements? : Value → Option (List Value)
  ofElements : List Value → Value
  members? : Value → Option (Dict Value)
  ofMembers : Dict Value → Value
  isNumber : Value → Bool
  integer? : Value → Option Int
  ofInteger : Int → Value
  /-- The sum of two numbers that are not both integers. -/
  addInexact : Value → Value → Value

/-- The library of values that stand for their own texts. There are no others, so whatever else it is to make
comes out as the empty text. -/
instance (priority := low) ValueLibrary.ofTexts : ValueLibrary where
  equal a b := a = b
  less a b := a.text < b.text
  isNull _ := false
  string? value := some value.text
  ofString text := ⟨text⟩
  elements? _ := none
  ofElements _ := ⟨""⟩
  members? _ := none
  ofMembers _ := ⟨""⟩
  isNumber _ := false
  integer? _ := none
  ofInteger _ := ⟨""⟩
  addInexact _ _ := ⟨""⟩

namespace Value

open ValueLibrary

def absentText : String := "undefined"

/-- The member of an object that holds the operators which made it. -/
def operatorsKey : String := "_ops"

variable [ValueLibrary]

/-- Equality of what may be absent. -/
def agree : Option Value → Option Value → Bool
  | some a, some b => equal a b
  | none, none => true
  | _, _ => false

theorem agree_refl (h : ∀ value, equal value value) (a : Option Value) : agree a a := by
  cases a with
  | none => rfl
  | some value => exact h value

theorem agree_comm (h : ∀ x y : Value, equal x y = equal y x) (a b : Option Value) : agree a b = agree b a := by
  cases a <;> cases b <;> simp [agree, h]

theorem agree_trans (h : ∀ x y z : Value, equal x y → equal y z → equal x z) {a b c : Option Value}
    (hab : agree a b) (hbc : agree b c) : agree a c := by
  cases b with
  | none =>
      cases a with
      | none => exact hbc
      | some _ => cases hab
  | some y =>
      cases a with
      | none => cases hab
      | some x =>
          cases c with
          | none => cases hbc
          | some z => exact h x y z hab hbc

def isNullish (value : Option Value) : Bool := value.all isNull

def member? (value : Option Value) (key : String) : Option Value :=
  (value.bind members?).bind (·.get? key)

/-- The value without the operators that made it. -/
def withoutOperators (value : Value) : Value :=
  match members? value with
  | some members => if members.contains operatorsKey then ofMembers (members.erase operatorsKey) else value
  | none => value

/-- The values, and after them each of the others that equals none before it. -/
def extend (values others : List Value) : List Value :=
  others.foldl (fun values other => if values.any (equal · other) then values else values ++ [other]) values

end Value

end VersionControl
