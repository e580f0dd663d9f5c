import VersionControl.Conflict.Basic
import VersionControl.Error

/-!
# Resolutions

The outcome for one conflict: a value that was picked, or a demand for a human decision.
-/

namespace VersionControl

structure Resolution where
  value : Option Value := none
  label : String := ""
  isManual : Bool := false
  conflict : Option Conflict := none
  explanation : String := ""
  deriving DecidableEq

namespace Resolution

def picked (conflict : Conflict) (value : Option Value) (label explanation : String) : Resolution :=
  { value, label, conflict := some conflict, explanation }

def manual (conflict : Conflict) (label explanation : String) : Resolution :=
  { label, isManual := true, conflict := some conflict, explanation }

def customLabel : String := "custom"

def decidedLabel : String := "manual-resolved"

/-- Fills in what a resolver left open, and takes away the value of one that leaves the decision open. -/
def settle (conflict : Conflict) (r : Resolution) : Resolution :=
  { r with
    label := if r.label = "" then customLabel else r.label
    value := if r.isManual then none else r.value
    conflict := r.conflict.or (some conflict) }

/-- A human decision on a resolution, whether it was open or not. -/
def decide (r : Resolution) (value : Option Value) : Resolution :=
  { r with
    value
    label := decidedLabel
    isManual := false
    explanation := match r.conflict with
      | some conflict => "Manually resolved " ++ conflict.location
      | none => "Manually resolved" }

def allComplete (rs : List Resolution) : Bool := rs.all (!·.isManual)

def unresolved (rs : List Resolution) : List Resolution := rs.filter (·.isManual)

/-- One decision on the resolution at a place of a list; `forget` drops its conflict first. -/
structure Decision where
  index : Nat
  value : Option Value
  forget : Bool := false

def applyDecision (rs : List Resolution) (d : Decision) : List Resolution :=
  rs.modify d.index fun r => (if d.forget then { r with conflict := none } else r).decide d.value

def applyDecisions (rs : List Resolution) (ds : List Decision) : List Resolution :=
  ds.foldl applyDecision rs

end Resolution

end VersionControl
