import Mathlib.Data.List.Forall2
import ScopeTags.Proofs.Reaction

/-!
# Scopes, their tags aside

Ids, the way in which scopes lie inside of each other and their qualified names do not depend on
tags, nor on whether a scope without a name is pending or tagged.  Two registries that match in all
else agree on them.

## Key results

- `Registry.Matches.nextId_eq`, `Registry.Matches.inner_eq`: new scopes are the same
- `Registry.Matches.qualifiedName_eq`: qualified names are the same
-/

namespace ScopeTags

/-- Lists whose elements are related have related elements in each place, or none. -/
theorem getElem?_of_forall₂ {α β : Type} {R : α → β → Prop} {l : List α} {l' : List β}
    (h : List.Forall₂ R l l') (i : Nat) :
    (l[i]? = none ∧ l'[i]? = none) ∨ ∃ a b, l[i]? = some a ∧ l'[i]? = some b ∧ R a b := by
  induction h generalizing i with
  | nil => exact .inl ⟨rfl, rfl⟩
  | cons hfirst _ ih =>
    cases i with
    | zero => exact .inr ⟨_, _, rfl, rfl, hfirst⟩
    | succ i => exact ih i

/-- The scopes are the same, their tags and their status aside, and both have a name or none. -/
structure Scope.Matches (s s' : Scope) : Prop where
  id_eq : s'.id = s.id
  arena_eq : s'.arena = s.arena
  parent_eq : s'.parent = s.parent
  name_eq : s'.name = s.name
  construct_eq : s'.construct = s.construct
  isNamed_eq : s'.isNamed = s.isNamed

namespace Registry

/-- The registries have the same scopes, tags and status aside. -/
def Matches (r r' : Registry) : Prop := List.Forall₂ Scope.Matches r.scopes r'.scopes

namespace Matches

variable {r r' : Registry}

/-- Under each number both have matching scopes, or neither has one. -/
theorem get? (h : r.Matches r') (i : Nat) :
    (r.get? i = none ∧ r'.get? i = none) ∨
      ∃ s s', r.get? i = some s ∧ r'.get? i = some s' ∧ s.Matches s' :=
  getElem?_of_forall₂ h i

/-- Registries that match have as many scopes. -/
theorem size_eq (h : r.Matches r') : r'.size = r.size := h.length_eq.symm

/-- The next id depends on how many scopes an arena has. -/
theorem nextId_eq (h : r.Matches r') (arena : Option String) :
    r'.nextId arena = r.nextId arena := by
  -- Each arena has as many scopes in both.
  have hlength : ∀ {l l' : List Scope}, List.Forall₂ Scope.Matches l l' → ∀ a : Option String,
      (l'.filter fun s => s.arena = a).length = (l.filter fun s => s.arena = a).length := by
    intro l l' h a
    induction h with
    | nil => rfl
    | cons hfirst _ ih =>
      rw [List.filter_cons, List.filter_cons, hfirst.arena_eq]
      split
      · rw [List.length_cons, List.length_cons, ih]
      · exact ih
  cases arena with
  | none => rw [nextId, nextId, hlength h]
  | some arena => rw [nextId, nextId, inArena, inArena, hlength h]

/-- A scope that is opened is the same in both. -/
theorem inner_eq (h : r.Matches r') (i : Nat) : r'.inner i = r.inner i := by
  have harena : (r'.get? i).bind (·.arena) = (r.get? i).bind (·.arena) := by
    rcases h.get? i with ⟨hs, hs'⟩ | ⟨s, s', hs, hs', hmatch⟩
    · rw [hs, hs']
    · rw [hs, hs']
      exact hmatch.arena_eq
  simp only [inner, harena, h.nextId_eq]

/-- The names on the way to a scope are the same. -/
theorem path_eq (h : r.Matches r') (i : Nat) : r'.path i = r.path i := by
  induction i using Nat.strongRecOn with
  | ind i ih =>
    rw [path, path]
    rcases h.get? i with ⟨hs, hs'⟩ | ⟨s, s', hs, hs', hmatch⟩
    · rw [hs, hs']
    · rw [hs, hs']
      simp only [hmatch.parent_eq, hmatch.name_eq]
      -- The names of the scopes around it are those of a scope with a smaller number.
      cases s.parent with
      | none => rfl
      | some p =>
        by_cases hp : p < i
        · simp only [if_pos hp, ih p hp]
        · simp only [if_neg hp]

/-- Registries that match have the same qualified names. -/
theorem qualifiedName_eq (h : r.Matches r') (i : Nat) :
    r'.qualifiedName i = r.qualifiedName i := by
  have hpath : r'.path = r.path := funext h.path_eq
  rw [qualifiedName, qualifiedName]
  rcases h.get? i with ⟨hs, hs'⟩ | ⟨s, s', hs, hs', hmatch⟩
  · rw [hs, hs']
  · rw [hs, hs']
    simp only [hmatch.isNamed_eq, hmatch.parent_eq, hmatch.name_eq, hmatch.construct_eq, hpath]

end Matches

end Registry

end ScopeTags
