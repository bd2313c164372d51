import ScopeTags.Scan

/-!
# Queries on results

Each query answers with the numbers of scopes, in the order the scopes were made.
-/

namespace ScopeTags

namespace Result

/-- How many scopes there are. -/
def size (r : Result) : Nat := r.registry.size

/-- The numbers of all scopes. -/
def all (r : Result) : List Nat := List.range r.size

/-- The number of the scope at that place in the order; negative places count from the end. -/
def place? (r : Result) (index : Int) : Option Nat :=
  let i := if index < 0 then index + r.size else index
  if 0 ≤ i ∧ i < r.size then some i.toNat else none

/-- The numbers of the scopes for which `p` holds. -/
def select (r : Result) (p : Nat → Scope → Bool) : List Nat :=
  r.all.filter fun i => (r.registry.get? i).any (p i)

/-- The scopes that have a name given. -/
def named (r : Result) : List Nat := r.select fun _ s => s.isNamed

/-- The scopes that have tags. -/
def tagged (r : Result) : List Nat := r.select fun _ s => !s.tags.isEmpty

/-- The scopes that were never closed. -/
def unclosed (r : Result) : List Nat := r.select fun _ s => !s.isClosed

/-- The scopes of that name, or those without one. -/
def findAll (r : Result) (name : Option String) : List Nat := r.select fun _ s => s.name = name

/-- The first scope of that name, or the first without one. -/
def find? (r : Result) (name : Option String) : Option Nat := (r.findAll name).head?

/-- The first scope of that qualified name, or the first without one. -/
def findQualified? (r : Result) (name : Option String) : Option Nat :=
  (r.select fun i _ => r.registry.qualifiedName i = name).head?

/-- The scopes with a tag of that name: and of that value, if one is given. -/
def withTag (r : Result) (name : String) (value : Option String) : List Nat :=
  r.select fun _ s => s.tags.has name value

end Result

end ScopeTags
