import ScopeTags.Tag

/-!
# The tags of a scope

A scope keeps the values of its tags under their names.  A name stands where it first came, and so
does a value among the values of its name; a value that comes again changes nothing.  So the same
tags may be kept in different orders, and whatever should not depend on that has to sort them.
-/

namespace ScopeTags

namespace Tag

/-- Add a value to those of a name, unless it is among them. -/
def addValue (value : String) (values : List String) : List String :=
  if value ∈ values then values else values ++ [value]

/-- Add a tag to the values of its name, which comes last where it is new. -/
def addTo (t : Tag) : List (String × List String) → List (String × List String)
  | [] => [(t.name, [t.value])]
  | (name, values) :: groups =>
    if name = t.name then (name, addValue t.value values) :: groups
    else (name, values) :: addTo t groups

theorem mem_addValue {value x : String} {values : List String} :
    x ∈ addValue value values ↔ x = value ∨ x ∈ values := by
  unfold addValue
  split
  · next h =>
    refine ⟨.inr, ?_⟩
    rintro (rfl | hx)
    · exact h
    · exact hx
  · simp [or_comm]

theorem nodup_addValue {value : String} {values : List String} (h : values.Nodup) :
    (addValue value values).Nodup := by
  unfold addValue
  split
  · exact h
  · next hnew =>
    refine List.nodup_append.mpr ⟨h, by simp, ?_⟩
    rintro x hx y hy rfl
    exact hnew (List.mem_singleton.mp hy ▸ hx)

/-- A group after a tag was added: as it was, or of the name of the tag. -/
theorem mem_addTo {t : Tag} {groups : List (String × List String)} {g : String × List String}
    (h : g ∈ addTo t groups) :
    g ∈ groups ∨ g = (t.name, [t.value]) ∨
      ∃ values, (t.name, values) ∈ groups ∧ g = (t.name, addValue t.value values) := by
  induction groups with
  | nil => exact .inr (.inl (List.mem_singleton.mp h))
  | cons first groups ih =>
    obtain ⟨name, values⟩ := first
    rw [addTo] at h
    split at h
    · next heq =>
      subst heq
      rcases List.mem_cons.mp h with rfl | h
      · exact .inr (.inr ⟨values, .head _, rfl⟩)
      · exact .inl (.tail _ h)
    · rcases List.mem_cons.mp h with rfl | h
      · exact .inl (.head _)
      · rcases ih h with h | h | ⟨values', hvalues, h⟩
        · exact .inl (.tail _ h)
        · exact .inr (.inl h)
        · exact .inr (.inr ⟨values', .tail _ hvalues, h⟩)

/-- Names of groups stay where they are, and a new one comes last. -/
theorem map_fst_addTo (t : Tag) (groups : List (String × List String)) :
    (addTo t groups).map Prod.fst = addValue t.name (groups.map Prod.fst) := by
  induction groups with
  | nil => rfl
  | cons first groups ih =>
    obtain ⟨name, values⟩ := first
    rw [addTo]
    split
    · next h => simp [addValue, h]
    · next h =>
      rw [List.map_cons, ih, List.map_cons, addValue, addValue]
      have hmem : t.name ∈ name :: groups.map Prod.fst ↔ t.name ∈ groups.map Prod.fst := by
        simp [Ne.symm h]
      simp only [hmem]
      split <;> rfl

/-- The tag is in one of the groups. -/
def In (t : Tag) (groups : List (String × List String)) : Prop :=
  ∃ values, (t.name, values) ∈ groups ∧ t.value ∈ values

theorem in_cons {t : Tag} {g : String × List String} {groups : List (String × List String)} :
    t.In (g :: groups) ↔ t.name = g.1 ∧ t.value ∈ g.2 ∨ t.In groups := by
  obtain ⟨name, values⟩ := g
  simp only [In, List.mem_cons, Prod.mk.injEq]
  constructor
  · rintro ⟨values', ⟨hname, rfl⟩ | hmem, hvalue⟩
    · exact .inl ⟨hname, hvalue⟩
    · exact .inr ⟨values', hmem, hvalue⟩
  · rintro (⟨hname, hvalue⟩ | ⟨values', hmem, hvalue⟩)
    · exact ⟨values, .inl ⟨hname, rfl⟩, hvalue⟩
    · exact ⟨values', .inr hmem, hvalue⟩

theorem in_addTo {t x : Tag} {groups : List (String × List String)} :
    x.In (addTo t groups) ↔ x = t ∨ x.In groups := by
  have heq : x = t ↔ x.name = t.name ∧ x.value = t.value := by
    cases x
    cases t
    simp
  induction groups with
  | nil =>
    rw [addTo, in_cons, heq, List.mem_singleton]
  | cons first groups ih =>
    obtain ⟨name, values⟩ := first
    rw [addTo]
    split
    · next h =>
      subst h
      rw [in_cons, in_cons, heq, mem_addValue, and_or_left, or_assoc]
    · simp only [in_cons, ih]
      exact or_left_comm

end Tag

/-- The tags of a scope: each name with its values, of which it has at least one. -/
@[ext] structure Tags where
  groups : List (String × List String)
  names_nodup : (groups.map Prod.fst).Nodup
  values_nodup : ∀ g ∈ groups, g.2.Nodup
  values_ne : ∀ g ∈ groups, g.2 ≠ []
deriving DecidableEq, Repr

namespace Tags

variable {tags : Tags} {t x : Tag}

/-- No tags. -/
def empty : Tags := ⟨[], .nil, nofun, nofun⟩

instance : EmptyCollection Tags := ⟨empty⟩

/-- The tags with one more. -/
def insert (tags : Tags) (t : Tag) : Tags where
  groups := t.addTo tags.groups
  names_nodup := t.map_fst_addTo _ ▸ Tag.nodup_addValue tags.names_nodup
  values_nodup g hg := by
    rcases Tag.mem_addTo hg with h | rfl | ⟨values, h, rfl⟩
    · exact tags.values_nodup g h
    · simp
    · exact Tag.nodup_addValue (tags.values_nodup _ h)
  values_ne g hg := by
    rcases Tag.mem_addTo hg with h | rfl | ⟨values, h, rfl⟩
    · exact tags.values_ne g h
    · simp
    · exact List.ne_nil_of_mem (Tag.mem_addValue.mpr (.inl rfl))

/-- The tags of a list, added one after the other. -/
def ofList (l : List Tag) : Tags := l.foldl insert ∅

/-- Whether there are no tags. -/
def isEmpty (tags : Tags) : Bool := tags.groups.isEmpty

/-- Whether `name` is among the tags: with that value, if one is given. -/
def has (tags : Tags) (name : String) (value : Option String) : Bool :=
  match tags.groups.lookup name with
  | none => false
  | some values => value.all values.contains

instance : Membership Tag Tags := ⟨fun tags t => t.In tags.groups⟩

theorem mem_def : t ∈ tags ↔ t.In tags.groups := Iff.rfl

@[simp] theorem not_mem_empty (t : Tag) : t ∉ (∅ : Tags) := by
  rintro ⟨values, h, -⟩
  cases h

@[simp] theorem mem_insert : x ∈ tags.insert t ↔ x = t ∨ x ∈ tags := Tag.in_addTo

end Tags

end ScopeTags
