import ScopeTags.Report
import ScopeTags.Settings

/-!
# Workbench

Scopes can be worked on directly, in any order: made, tagged, named, closed, and shown tokens.  An
operation that fails changes nothing.
-/

namespace ScopeTags

/-- An operation on the scopes of a registry. -/
inductive Operation where
  /-- Make a scope, inside of another one if a parent is given. -/
  | create (parent : Option Nat) (arena : Option String)
  /-- Open a scope inside of scope `i`. -/
  | spawn (i : Nat)
  | tag (i : Nat) (tag : Tag)
  | awaitName (i : Nat) (construct : Option Construct)
  | assignName (i : Nat) (name : String) (location : Option Location)
  | close (i : Nat)
  /-- Show scope `i` a comment, with a filter in place of the settings if one is given. -/
  | comment (i : Nat) (token : Token) (filter : Option Filter)
  | keyword (i : Nat) (token : Token)
  | name (i : Nat) (token : Token)
deriving DecidableEq, Repr

namespace Operation

/-- An operation that yields no scope. -/
def quiet (change : Except Fault Registry.Change) : Except Fault Reaction :=
  change.map fun (registry, notices) => { registry, receiver := none, notices }

/-- Carry out an operation: the registry after it, the scope that it yields, and the notices. -/
def perform (settings : Settings) (r : Registry) : Operation → Except Fault Reaction
  | .create parent arena =>
    if parent.all (· < r.size) then
      .ok { registry := r.enroll parent arena, receiver := some r.size }
    else .error .outOfRange
  | .spawn i =>
    match r.get? i with
    | none => .error .outOfRange
    | some _ =>
      let (registry, notices) := r.spawn i
      .ok { registry, receiver := some r.size, notices }
  | .tag i added => quiet (r.tag i added)
  | .awaitName i construct => quiet (r.awaitName i construct)
  | .assignName i given location => quiet (r.assignName i given location)
  | .close i => quiet (r.close i)
  | .comment i token filter =>
    match filter with
    | none => r.onComment i settings.accepts token
    | some filter => r.onComment i (fun tag => filter.accepts tag) token
  | .keyword i token => r.onKeyword i token
  | .name i token => r.onName i token

end Operation

end ScopeTags
