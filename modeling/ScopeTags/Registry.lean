import ScopeTags.Notice

/-!
# Registries of scopes

A registry keeps scopes in the order they were made, each under its number in that order.  Nothing
is ever removed.  Scopes may belong to arenas: an arena numbers its own scopes from zero, and a
scope without an arena gets the next negative number as its id.

A reaction to a token says which scope receives the next token: the same one, one opened inside of
it, or its parent.  An operation that fails leaves the registry as it was.
-/

namespace ScopeTags

/-- Scopes, each under its number. -/
structure Registry where
  scopes : List Scope := []
deriving DecidableEq

/-- What an operation on a registry yields: the registry after it and the notices it leaves. -/
abbrev Registry.Change := Registry × List Notice

/-- What a reaction to a token yields. -/
structure Reaction where
  registry : Registry
  /-- The scope that receives the next token, if one does. -/
  receiver : Option Nat
  notices : List Notice := []
deriving DecidableEq

/-- Names that are no names of constructs, because they are calls. -/
def ignoredNames : List String :=
  ["require", "require_relative", "include", "extend", "prepend", "private", "protected", "public",
   "module_function", "class_eval", "instance_eval", "define_method"]

namespace Registry

/-- How many scopes there are. -/
def size (r : Registry) : Nat := r.scopes.length

/-- The scope of number `i`. -/
def get? (r : Registry) (i : Nat) : Option Scope := r.scopes[i]?

/-- The scopes of an arena, in the order they were made. -/
def inArena (r : Registry) (arena : String) : List Scope :=
  r.scopes.filter fun s => s.arena = some arena

/-- The scope of that number in an arena; negative numbers count from the end. -/
def member? (r : Registry) (arena : String) (index : Int) : Option Scope :=
  let scopes := r.inArena arena
  let i := if index < 0 then index + scopes.length else index
  if i < 0 then none else scopes[i.toNat]?

/-- The id of the next scope of an arena, or of the next one without an arena. -/
def nextId (r : Registry) : Option String → Int
  | some arena => (r.inArena arena).length
  | none => -1 - (r.scopes.filter fun s => s.arena = none).length

/-- The registry with one more scope, whose number is the size of this one.  A scope that is given
    no arena belongs to the one of its parent. -/
def enroll (r : Registry) (parent : Option Nat) (arena : Option String) : Registry :=
  let arena := arena.or (parent.bind r.get? |>.bind (·.arena))
  ⟨r.scopes ++ [{ id := r.nextId arena, arena, parent }]⟩

@[simp] theorem size_enroll (r : Registry) (parent : Option Nat) (arena : Option String) :
    (r.enroll parent arena).size = r.size + 1 := by
  simp [enroll, size]

/-- A new scope leaves the others as they are. -/
theorem get?_enroll_of_lt {r : Registry} {i : Nat} (h : i < r.size) (parent : Option Nat)
    (arena : Option String) : (r.enroll parent arena).get? i = r.get? i :=
  List.getElem?_append_left h

/-- The names on the way from an outermost scope to scope `i`.  It is assumed that the way may be of
    any length: nothing bounds how many scopes stand inside of each other, and the look-up that goes
    from a scope to its parent never runs out of room. -/
def path (r : Registry) (i : Nat) : List String :=
  match r.get? i with
  | none => []
  | some s =>
    -- A parent is made before the scopes inside of it and has the smaller number.
    let outer := match s.parent with
      | none => []
      | some p => if p < i then r.path p else []
    outer ++ s.name.toList
termination_by i

/-- The qualified name of scope `i`, once it is named.  Its own name follows those of the scopes
    around it after two colons, and a hash sign if it is a method of instances. -/
def qualifiedName (r : Registry) (i : Nat) : Option String :=
  match r.get? i with
  | none => none
  | some s =>
    if s.isNamed then
      match s.parent.elim [] r.path with
      | [] => s.name
      | names =>
        let separator := if s.construct = some .instanceMethod then "#" else "::"
        some (String.intercalate "::" names ++ separator ++ s.name.getD "None")
    else none

/-- The notice that a scope went from one status to another. -/
def transitionNotice (event : String) (source target : Status) : List Notice :=
  Notice.ofChange "TaggableEntity" event source target

/-- The registry with another scope of number `i`. -/
def set (r : Registry) (i : Nat) (s : Scope) : Registry := ⟨r.scopes.set i s⟩

@[simp] theorem size_set (r : Registry) (i : Nat) (s : Scope) : (r.set i s).size = r.size := by
  simp [set, size]

theorem get?_set_self {r : Registry} {i : Nat} (h : i < r.size) (s : Scope) :
    (r.set i s).get? i = some s :=
  List.getElem?_set_self h

theorem get?_set_ne {r : Registry} {i j : Nat} (h : i ≠ j) (s : Scope) :
    (r.set i s).get? j = r.get? j :=
  List.getElem?_set_ne h

/-- Change scope `i` by an operation that triggers `event`. -/
def change (r : Registry) (i : Nat) (event : String) (operation : Scope → Except Fault Scope) :
    Except Fault Change :=
  match r.get? i with
  | none => .error .outOfRange
  | some before =>
    match operation before with
    | .error fault => .error fault
    | .ok after => .ok (r.set i after, transitionNotice event before.status after.status)

/-- Change scope `i` by an operation that is no event and leaves no notice. -/
def amend (r : Registry) (i : Nat) (operation : Scope → Except Fault Scope) :
    Except Fault Registry :=
  match r.get? i with
  | none => .error .outOfRange
  | some before => (operation before).map (r.set i)

/-- Trigger an event on scope `i`. -/
def trigger (r : Registry) (i : Nat) (event : String) : Except Fault Change :=
  r.change i event (·.trigger event)

/-- Add a tag to scope `i`. -/
def tag (r : Registry) (i : Nat) (tag : Tag) : Except Fault Change :=
  r.change i "tag" (·.tag tag)

/-- Let scope `i` wait for its name. -/
def awaitName (r : Registry) (i : Nat) (construct : Option Construct) : Except Fault Change :=
  r.change i "await_name" (·.awaitName construct)

/-- Give scope `i` its name. -/
def assignName (r : Registry) (i : Nat) (name : String) (location : Option Location) :
    Except Fault Change :=
  r.change i "name" (·.assignName name location)

/-- Close scope `i`, and say so unless it was frozen already. -/
def close (r : Registry) (i : Nat) : Except Fault Change :=
  match r.change i "close" Scope.close with
  | .error fault => .error fault
  | .ok (closed, notices) =>
    -- The qualified name is the one that the scope has once it is closed.
    if (r.get? i).any (·.frozen) then .ok (closed, notices)
    else .ok (closed, notices ++ [.closed (closed.qualifiedName i)])

/-- Open a scope inside of scope `i`. -/
def spawn (r : Registry) (i : Nat) : Change :=
  let id (r : Registry) (i : Nat) : Int := ((r.get? i).map (·.id)).getD 0
  let grown := r.enroll (some i) none
  (grown, [.spawned (id r i) (id grown r.size)])

/-- The scope for which what follows is meant while scope `i` is current: a named one opens a scope
    inside of it. -/
def receiverAt (r : Registry) (i : Nat) : Registry × Nat × List Notice :=
  if (r.get? i).any (·.status = .named) then
    let (grown, notices) := r.spawn i
    (grown, r.size, notices)
  else (r, i, [])

/-- React to a comment while scope `i` is current.  A tag documents the construct to come; one
    that is not accepted still opens the scope for it. -/
def onComment (r : Registry) (i : Nat) (accepts : String → Bool) (t : Token) :
    Except Fault Reaction :=
  if t.isTagComment then
    let tag : Tag := ⟨t.tagName.getD "", t.tagValue.getD ""⟩
    let (registry, receiver, notices) := r.receiverAt i
    if accepts tag.name then
      match registry.tag receiver tag with
      | .error fault => .error fault
      | .ok (registry, more) =>
        .ok { registry, receiver := some receiver, notices := notices ++ more }
    else .ok { registry, receiver := some receiver, notices := notices ++ [.dropped tag.name] }
  else .ok { registry := r, receiver := some i }

/-- React to a keyword while scope `i` is current. -/
def onKeyword (r : Registry) (i : Nat) (t : Token) : Except Fault Reaction :=
  match t.keywordClass with
  | some .newScope =>
    let (registry, receiver, notices) := r.receiverAt i
    match registry.awaitName receiver t.construct with
    | .error fault => .error fault
    | .ok (registry, more) =>
      .ok { registry, receiver := some receiver, notices := notices ++ more }
  | some .scopeEnd =>
    match r.close i with
    | .error fault => .error fault
    | .ok (registry, notices) =>
      .ok { registry, receiver := (r.get? i).bind (·.parent), notices }
  | _ => .ok { registry := r, receiver := some i }

/-- React to a possible name while scope `i` is current. -/
def onName (r : Registry) (i : Nat) (t : Token) : Except Fault Reaction :=
  if t.text ∉ ignoredNames ∧ (r.get? i).any (·.status = .awaitingName) then
    match r.assignName i t.text (some t.location) with
    | .error fault => .error fault
    | .ok (registry, notices) => .ok { registry, receiver := some i, notices }
  else .ok { registry := r, receiver := some i }

/-- React to a token while scope `i` is current. -/
def react (r : Registry) (i : Nat) (accepts : String → Bool) (t : Token) : Except Fault Reaction :=
  match t.kind with
  | .comment => r.onComment i accepts t
  | .keyword => r.onKeyword i t
  | .identifier => r.onName i t
  | .constant => r.onName i t

end Registry

end ScopeTags
