import VersionControl.Change.Basic

/-!
# Conflicts

A conflict is a divergence of two sides on one target, or on one field of it.
-/

namespace VersionControl

namespace Conflict

inductive Kind
  | concurrentUpdate
  | deleteUpdate
  | createCreate
  deriving DecidableEq, Repr

namespace Kind

def all : List Kind := [.concurrentUpdate, .deleteUpdate, .createCreate]

def name : Kind → String
  | .concurrentUpdate => "concurrent_update"
  | .deleteUpdate => "delete_update"
  | .createCreate => "create_create"

def ofName? (text : String) : Option Kind := all.find? (·.name = text)

end Kind

end Conflict

structure Conflict where
  kind : Conflict.Kind
  target : String
  field : Option String := none
  ours : Option Value := none
  theirs : Option Value := none
  base : Option Value := none
  ourChange : Change := {}
  theirChange : Change := {}
  /-- Whether a strategy settled the conflict; none when no strategy ran. -/
  resolved : Option Bool := none
  deriving DecidableEq

namespace Conflict

def location (conflict : Conflict) : String :=
  match conflict.field with
  | some field => conflict.target ++ "." ++ field
  | none => conflict.target

end Conflict

end VersionControl
