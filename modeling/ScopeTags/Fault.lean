import ScopeTags.Location
import ScopeTags.Machine
import ScopeTags.Scalar

/-!
# Faults

Every way in which an operation can fail, with the wording of its message.
-/

namespace ScopeTags

/-- What went wrong. -/
inductive Fault where
  /-- An event was triggered in a status that does not permit it. -/
  | illegalTransition (event : String) (status : Scalar) (site : Site)
  /-- A closed scope was to be changed. -/
  | frozen (event : String) (status : Scalar) (site : Site)
  /-- The source text cannot be read. -/
  | lexical (reason : String) (site : Site)
  /-- A scan was told to stop after so many tokens. -/
  | cancelled (consumed : Int)
  /-- A state machine was declared wrongly. -/
  | flawed (flaw : Machine.Flaw Scalar)
  /-- A state machine was declared wrongly, for a reason given in words. -/
  | misdeclared (reason : String)
  /-- Any other fault, given in words. -/
  | general (reason : String)
  /-- The value is no error policy. -/
  | unknownPolicy (given : Scalar)
  /-- Scans cannot be spread over no workers at all. -/
  | noWorkers
  /-- A value of this type is neither a scope nor a result. -/
  | unserializable (type : String)
  /-- There is no member of that number. -/
  | outOfRange
  /-- A scanner was to run a second time. -/
  | spent
  /-- The body of a block gave up. -/
  | aborted
deriving DecidableEq, Repr

/-- The wording of a flaw in a machine. -/
def Machine.Flaw.message : Machine.Flaw Scalar → String
  | noStates => "A state machine needs at least one state"
  | duplicateState => "Duplicate state declared"
  | eventDeclared event => s!"Event '{event}' already declared"
  | noRules event => s!"Event '{event}' has no transitions"
  | undeclaredState event state =>
    s!"Event '{event}' references undeclared state " ++ state.literal
  | ruleTooShort states => s!"not enough values to unpack (expected 2, got {states})"
  | ruleTooLong => "too many values to unpack (expected 2)"

namespace Fault

/-- The wording of a fault. -/
def message : Fault → String
  | illegalTransition event status site =>
    site.label ++ s!"Invalid transition: cannot transition via {event} from " ++ status.plain
  | frozen event _ _ => s!"Cannot modify closed entity ({event})"
  | lexical reason site => site.label ++ reason
  | cancelled consumed => s!"Scan cancelled after {consumed} tokens"
  | flawed flaw => flaw.message
  | misdeclared reason => reason
  | general reason => reason
  | unknownPolicy given => "on_error must be one of ('raise', 'skip'), got " ++ given.literal
  | noWorkers => "max_workers must be greater than 0"
  | unserializable type => s!"Cannot serialize {type}"
  | outOfRange => "list index out of range"
  | spent => "Scanner instances are single-use"
  | aborted => "boom"

/-- Whether the fault is about a change of status that is not permitted. -/
def isTransition : Fault → Bool
  | illegalTransition .. | frozen .. => true
  | _ => false

/-- The same fault about a change of status, at another site. -/
def locate (site : Site) : Fault → Fault
  | illegalTransition event status _ => illegalTransition event status site
  | frozen event status _ => frozen event status site
  | fault => fault

end Fault

end ScopeTags
