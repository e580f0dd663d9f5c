import VersionControl.Change.Operators
import VersionControl.Text

/-!
# Changes

A change is one entry in the history of an entity, its target. Two sides that diverged have a stream of
changes each.
-/

namespace VersionControl

namespace Change

inductive Kind
  | create
  | update
  | delete
  | relate
  | unrelate
  deriving DecidableEq, Repr

namespace Kind

def all : List Kind := [.create, .update, .delete, .relate, .unrelate]

def name : Kind → String
  | .create => "CREATE"
  | .update => "UPDATE"
  | .delete => "DELETE"
  | .relate => "REL_CREATE"
  | .unrelate => "REL_DELETE"

def ofName? (text : String) : Option Kind := all.find? (·.name = text)

def isCreate : Kind → Bool
  | .create | .relate => true
  | _ => false

def isUpdate : Kind → Bool
  | .update => true
  | _ => false

def isDelete : Kind → Bool
  | .delete | .unrelate => true
  | _ => false

end Kind

end Change

structure Change where
  id : String := ""
  /-- Milliseconds since the epoch. -/
  time : Int := 0
  kind : Change.Kind := .create
  /-- The entity, as its namespace, a colon and its name there. -/
  target : String := ""
  before : Option Value := none
  after : Option Value := none
  actor : String := ""
  metadata : Option Value := none
  operators : Option Operators := none
  deriving DecidableEq

namespace Change

def targetNamespace (target : String) : String := Text.beforeFirst ':' target

section Library

variable [ValueLibrary]

/-- The after-state that is compared. -/
def state (change : Change) : Option Value := change.after.map Value.withoutOperators

/-- The operators that came with a change, or else those that its after-state keeps, or else those that its
metadata tells. -/
def effectiveOperators (change : Change) : Operators :=
  match change.operators with
  | some ops => ops
  | none =>
    let kept := Operators.ofState change.after
    if !kept.isEmpty then kept
    else match Value.member? change.metadata "update" with
      | some update => Operators.ofValue update
      | none => .empty

end Library

/-- In ascending time; changes of one time keep their order. -/
def sort (changes : List Change) : List Change := changes.mergeSort (fun a b => a.time ≤ b.time)

def targets (changes : List Change) : List String := (changes.map (·.target)).eraseDups

/-- Takes in the next change of a stream: it replaces the one kept for its target unless that is later. -/
def keepLatest : List Change → Change → List Change
  | [], next => [next]
  | kept :: rest, next =>
    if kept.target = next.target then
      (if kept.time ≤ next.time then next else kept) :: rest
    else kept :: keepLatest rest next

/-- The latest change of each target, the last of the stream among equals, by the first appearance of the
targets. -/
def latest (changes : List Change) : List Change := changes.foldl keepLatest []

end Change

end VersionControl
