import VersionControl.Dict
import VersionControl.Value

/-!
# Update operators

The operators that made an after-state, each with its fields and their payloads, such as an increment of a
counter. Two sets of operators commute when applying them in either order gives the same state.
-/

namespace VersionControl

abbrev Operators := Dict (Dict Value)

namespace Operators

/-- The operators whose effects add up, so that their order does not matter. -/
def isAccumulating (operator : String) : Bool :=
  operator = "$inc" || operator = "$min" || operator = "$max" || operator = "$addToSet"

def fields (ops : Operators) : List String :=
  (Dict.ofList (ops.entries.flatMap fun e => e.2.keys.map fun field => (field, ()))).keys

def kindsOn (ops : Operators) (field : String) : List String :=
  (ops.entries.filter (·.2.contains field)).map (·.1)

def isSingleAccumulating : List String → Bool
  | [] => false
  | kind :: rest => isAccumulating kind && rest.all (· = kind)

/-- Each field that both sides name is named by one operator only, the same on both sides, and that one
accumulates. -/
def commutes (a b : Operators) : Bool :=
  a.fields.all fun field =>
    (b.kindsOn field).isEmpty || isSingleAccumulating (a.kindsOn field ++ b.kindsOn field)

def restrict (ops : Operators) (field : String) : Operators :=
  Dict.ofList (ops.entries.filterMap fun e =>
    (e.2.get? field).map fun payload => (e.1, Dict.empty.insert field payload))

/-- As `commutes`, for one field, which both sides have to name. -/
def commutesOn (a b : Operators) (field : String) : Bool :=
  let a := a.restrict field
  let b := b.restrict field
  !a.isEmpty && !b.isEmpty && commutes a b

/-- The operators of both sides, and under each the fields of both sides. A payload that both sides have is
taken from the first, unless the operator accumulates: then `accumulate` makes one payload of the two. -/
def combineWith (accumulate : String → Value → Value → Value) (a b : Operators) : Operators :=
  Dict.unionWith (fun operator => Dict.unionWith fun _ ours theirs =>
    if isAccumulating operator then accumulate operator ours theirs else ours) a b

/-! ## Operators in values -/

section Library

open ValueLibrary

variable [ValueLibrary]

/-- What is no number counts for nothing beside one. -/
def addNumbers (ours theirs : Value) : Value :=
  if !isNumber ours || !isNumber theirs then
    if isNumber theirs then theirs else ours
  else match integer? ours, integer? theirs with
    | some a, some b => ofInteger (a + b)
    | _, _ => addInexact ours theirs

/-- The elements that a payload adds to a set: those under `$each`, or the payload itself. -/
def setElements (payload : Value) : List Value :=
  ((Value.member? (some payload) "$each").bind elements?).getD [payload]

def uniteSets (ours theirs : Value) : Value :=
  ofMembers (Dict.empty.insert "$each" (ofElements (Value.extend [] (setElements ours ++ setElements theirs))))

def accumulate (operator : String) (ours theirs : Value) : Value :=
  if operator = "$inc" then addNumbers ours theirs
  else if operator = "$min" then if less theirs ours then theirs else ours
  else if operator = "$max" then if less ours theirs then theirs else ours
  else if operator = "$addToSet" then uniteSets ours theirs
  else ours

def combine (a b : Operators) : Operators := combineWith accumulate a b

/-- The operators that a value tells: its members that are objects, with theirs as the payloads. -/
def ofValue (value : Value) : Operators :=
  match members? value with
  | some members =>
    Dict.ofList (members.entries.filterMap fun e => (members? e.2).map fun payloads => (e.1, payloads))
  | none => .empty

/-- The operators that a state keeps of how it was made. -/
def ofState (state : Option Value) : Operators :=
  match Value.member? state Value.operatorsKey with
  | some value => ofValue value
  | none => .empty

end Library

end Operators

end VersionControl
