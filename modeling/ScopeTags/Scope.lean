import ScopeTags.Fault
import ScopeTags.Tags
import ScopeTags.Token

/-!
# Scopes

A scope follows one module, class or method through the text.  It starts out pending, is tagged when
a comment documents it, awaits its name when its keyword has come, is named by the next name, and is
closed by its `end`.  Closing freezes it: nothing about it can change any more.
-/

namespace ScopeTags

/-- How far a scope has come. -/
inductive Status where
  | pending
  | tagged
  | awaitingName
  | named
  | closed
deriving DecidableEq, Repr

namespace Status

/-- The status as messages and results show it. -/
def text : Status → String
  | pending => "pending"
  | tagged => "tagged"
  | awaitingName => "awaiting_name"
  | named => "named"
  | closed => "closed"

/-- The status as the record of a transition shows it. -/
def label : Status → String
  | pending => "PENDING"
  | tagged => "TAGGED"
  | awaitingName => "AWAITING_NAME"
  | named => "NAMED"
  | closed => "CLOSED"

instance : Shown Status := ⟨fun s => .text s.text, label⟩

/-- All statuses, in the order in which a scope goes through them. -/
def all : List Status := [pending, tagged, awaitingName, named, closed]

/-- The status of that text. -/
def ofText? (text : String) : Option Status :=
  all.find? fun s => s.text = text

end Status

/-- The machine that every scope follows. -/
def lifecycle : Machine Status where
  initial := .pending
  others := [.tagged, .awaitingName, .named, .closed]
  events := [
    ("tag", [⟨.pending, .tagged⟩]),
    ("await_name", [⟨.pending, .awaitingName⟩, ⟨.tagged, .awaitingName⟩]),
    ("name", [⟨.awaitingName, .named⟩]),
    ("close", [⟨.named, .closed⟩])]

/-- A scope. -/
structure Scope where
  id : Int
  /-- The arena that keeps the scope, if one does. -/
  arena : Option String := none
  /-- The number of the enclosing scope. -/
  parent : Option Nat := none
  name : Option String := none
  /-- What the scope stands for, as soon as that is known. -/
  construct : Option Construct := none
  status : Status := .pending
  tags : Tags := ∅
  /-- Where the scope got its name. -/
  location : Location := {}
  frozen : Bool := false
deriving DecidableEq

namespace Scope

/-- Whether a name has been given. -/
def isNamed (s : Scope) : Bool := s.status = .named ∨ s.status = .closed

/-- Whether the scope has been entered and not left. -/
def isOpen (s : Scope) : Bool :=
  s.status = .tagged ∨ s.status = .awaitingName ∨ s.status = .named

/-- Whether the scope has been left. -/
def isClosed (s : Scope) : Bool := s.status = .closed

/-- Whether the scope is a namespace. -/
def isModule (s : Scope) : Bool :=
  s.construct = some .moduleDef ∨ s.construct = some .classDef

/-- The name of what the scope stands for. -/
def type (s : Scope) : String := (s.construct.map Construct.label).getD "none"

/-- The fault that `event` is not permitted now. -/
def refuse (s : Scope) (event : String) : Fault :=
  .illegalTransition event (.text s.status.text) {}

/-- The fault that `event` would change a closed scope. -/
def protest (s : Scope) (event : String) : Fault :=
  .frozen event (.text s.status.text) {}

/-- Set the status, whatever it was, unless the scope is frozen. -/
def setStatus (s : Scope) (status : Status) : Except Fault Scope :=
  if s.frozen then .error (s.protest "set status") else .ok { s with status }

/-- Trigger an event of the lifecycle. -/
def trigger (s : Scope) (event : String) : Except Fault Scope :=
  match lifecycle.next? event s.status with
  | none => .error (s.refuse event)
  | some target => if target = s.status then .ok s else s.setStatus target

/-- Add a tag. -/
def tag (s : Scope) (tag : Tag) : Except Fault Scope := do
  let s ← s.trigger "tag"
  return { s with tags := s.tags.insert tag }

/-- Wait for a name, as a construct of the given make if one is given. -/
def awaitName (s : Scope) (construct : Option Construct) : Except Fault Scope := do
  let s ← s.trigger "await_name"
  return { s with construct := construct.or s.construct }

/-- Take a name, and the place where it was given if there is one. -/
def assignName (s : Scope) (name : String) (location : Option Location) : Except Fault Scope := do
  if s.status ≠ .awaitingName then throw (s.refuse "name")
  let s ← s.trigger "name"
  return { s with name := some name, location := location.getD s.location }

/-- Leave the scope and freeze it.  A frozen scope stays as it is. -/
def close (s : Scope) : Except Fault Scope := do
  if s.frozen then return s
  let s ← s.trigger "close"
  return { s with frozen := true }

/-- A field of a scope with the value that it is to have. -/
inductive Field where
  | id (value : Int)
  | name (value : Option String)
  /-- Any other field, which is kept nowhere. -/
  | other (key : String)
deriving DecidableEq, Repr

/-- The name of the field. -/
def Field.key : Field → String
  | id _ => "id"
  | name _ => "_name"
  | other key => key

/-- Set a field, whatever the status, unless the scope is frozen. -/
def setField (s : Scope) (field : Field) : Except Fault Scope :=
  if s.frozen then .error (s.protest ("set " ++ field.key))
  else
    match field with
    | .id value => .ok { s with id := value }
    | .name value => .ok { s with name := value }
    | .other _ => .ok s

/-- The scope in one line. -/
def render (s : Scope) : String :=
  let name := (s.name.map Text.quoted).getD "None"
  s!"<TaggableEntity id={s.id} status={s.status.text} name={name}>"

end Scope

end ScopeTags
