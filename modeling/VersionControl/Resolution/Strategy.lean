import VersionControl.Resolution.Basic

/-!
# Strategies

How conflicts are resolved without a human: a strategy is a tree of rules, and applying it to a conflict
always gives a resolution, which may still ask for a decision.
-/

namespace VersionControl

inductive NamedStrategy
  | ours
  | theirs
  /-- The value of the later change; ours if they are of one time. -/
  | latest
  | manual
  deriving DecidableEq, Repr

namespace NamedStrategy

def all : List NamedStrategy := [.ours, .theirs, .latest, .manual]

def name : NamedStrategy → String
  | .ours => "ours"
  | .theirs => "theirs"
  | .latest => "latest"
  | .manual => "manual"

def ofName? (text : String) : Option NamedStrategy := all.find? (·.name = text)

def apply (c : Conflict) : NamedStrategy → Resolution
  | .ours => .picked c c.ours "ours" ("Kept our value for " ++ c.location)
  | .theirs => .picked c c.theirs "theirs" ("Took their value for " ++ c.location)
  | .latest =>
    let (side, value) :=
      if c.ourChange.time ≥ c.theirChange.time then ("Our", c.ours) else ("Their", c.theirs)
    .picked c value "latest" (side ++ " change to " ++ c.location ++ " is the most recent (ours ts=" ++
      toString c.ourChange.time ++ ", theirs ts=" ++ toString c.theirChange.time ++ ")")
  | .manual => .manual c "manual" ("Conflict on " ++ c.location ++ " requires manual resolution")

end NamedStrategy

inductive Strategy
  | named (strategy : NamedStrategy)
  /-- The first member that decides, or else the last one. -/
  | fallback (members : List Strategy)
  | byField (table : List (String × Strategy)) (others : Strategy)
  /-- Ours if the predicate holds of both values, theirs otherwise. -/
  | prefer (ours : Option Value → Option Value → Bool)
  /-- Theirs if ours is absent or null and theirs is not, ours otherwise. -/
  | nonNull
  | concatenate (separator : String)
  /-- The elements of ours, and after them those of theirs that are new. -/
  | mergeArrays
  | custom (resolver : Conflict → Resolution)

namespace Strategy

instance : Inhabited Strategy := ⟨.named .manual⟩

def defaultSeparator : String := " "

def ofToken (token : String) : Except Error Strategy :=
  match NamedStrategy.ofName? token with
  | some strategy => .ok (.named strategy)
  | none => .error (.unknownStrategy token)

def preferred (c : Conflict) (ours : Bool) : Resolution :=
  if ours then .picked c c.ours "preference" ("Preferred our value for " ++ c.location)
  else .picked c c.theirs "preference" ("Preferred their value for " ++ c.location)

variable [ValueLibrary]

open ValueLibrary (elements? ofElements ofString string?)

def present (c : Conflict) : Resolution :=
  if Value.isNullish c.ours && !Value.isNullish c.theirs then
    .picked c c.theirs "non-null" ("Chose their value for " ++ c.location)
  else .picked c c.ours "non-null" ("Chose our value for " ++ c.location)

def joined (separator : String) (c : Conflict) : Resolution :=
  match c.ours.bind string?, c.theirs.bind string? with
  | some ours, some theirs =>
    .picked c (some (ofString (ours ++ separator ++ theirs))) "concatenate"
      ("Concatenated both values for " ++ c.location)
  | _, _ => .manual c "concatenate" ("Cannot concatenate non-string values for " ++ c.location)

def merged (c : Conflict) : Resolution :=
  match c.ours.bind elements?, c.theirs.bind elements? with
  | some ours, some theirs =>
    .picked c (some (ofElements (Value.extend ours theirs))) "array-merge"
      ("Merged array elements for " ++ c.location)
  | _, _ => .manual c "array-merge" ("Cannot merge non-array values for " ++ c.location)

mutual
def apply (c : Conflict) : Strategy → Resolution
  | .named strategy => strategy.apply c
  | .fallback members => .settle c ((applyFirst c members).getD
      (.manual c "manual" ("No fallback strategy resolved " ++ c.location)))
  | .byField table others => .settle c ((applyField c table).getD (apply c others))
  | .prefer ours => .settle c (preferred c (ours c.ours c.theirs))
  | .nonNull => .settle c (present c)
  | .concatenate separator => .settle c (joined separator c)
  | .mergeArrays => .settle c (merged c)
  | .custom resolver => .settle c (resolver c)

/-- The first resolution that is not manual, or else the last one; none if there is no member. -/
def applyFirst (c : Conflict) : List Strategy → Option Resolution
  | [] => none
  | strategy :: rest =>
    let r := apply c strategy
    if r.isManual then (applyFirst c rest).or (some r) else some r

def applyField (c : Conflict) : List (String × Strategy) → Option Resolution
  | [] => none
  | (field, strategy) :: rest =>
    if c.field = some field then some (apply c strategy) else applyField c rest
end

def applyAll (strategy : Strategy) (conflicts : List Conflict) : List Resolution :=
  conflicts.map (apply · strategy)

def applyByKind (table : Conflict.Kind → Option Strategy) (others : Strategy := .named .manual)
    (conflicts : List Conflict) : List Resolution :=
  conflicts.map fun c => apply c ((table c.kind).getD others)

def applyToken (c : Conflict) (token : String) : Except Error Resolution :=
  return apply c (← ofToken token)

end Strategy

end VersionControl
