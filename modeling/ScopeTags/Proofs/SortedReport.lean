import Mathlib.Data.List.Forall2
import Mathlib.Data.List.Nodup
import ScopeTags.Report

/-!
# What sorting does to a report

A report is a record with its keys sorted throughout.  Under each key a reader finds in the report
what stands in the record, the keys strictly increase, and the order in which the tags of a scope
came leaves no trace.

## Key results

- `Json.reorders_sorted`: a report differs from its record in the order of members only
- `Json.DistinctKeys.sorted`: its keys strictly increase
- `Tags.toJson_eq_of_same`: tags that are the same have the same report
-/

namespace ScopeTags

namespace Json

/-! ## Values -/

/-- Items are sorted one by one. -/
private theorem sortedItems_eq (items : List Json) : sortedItems items = items.map sorted := by
  induction items with
  | nil => rfl
  | cons item items ih => rw [sortedItems, ih, List.map_cons]

/-- The values of members are sorted one by one. -/
private theorem sortedMembers_eq (members : List (String × Json)) :
    sortedMembers members = members.map fun m => (m.1, m.2.sorted) := by
  induction members with
  | nil => rfl
  | cons m members ih => rw [sortedMembers, ih, List.map_cons]

/-- The order of items stays. -/
private theorem sorted_array (items : List Json) :
    (array items).sorted = array (items.map sorted) := by
  rw [sorted, sortedItems_eq]

/-- The members of an object are put into the order of their keys, and each value is sorted. -/
private theorem sorted_object (members : List (String × Json)) :
    (object members).sorted = object ((Keyed.sort members).map fun m => (m.1, m.2.sorted)) := by
  rw [sorted, sortedMembers_eq, Keyed.sort_map]

/-- The member of that key. -/
def member? (key : String) : Json → Option Json
  | object members => members.lookup key
  | _ => none

/-- A key stands where it is found whether or not the keys are sorted. -/
theorem member?_sort (members : List (String × Json)) (key : String) :
    (object (Keyed.sort members)).member? key = members.lookup key := by
  rw [member?, Keyed.lookup_sort]

/-- What may be missing is left as it is, if it is when it is there. -/
private theorem sorted_ofOption {α : Type} {f : α → Json} (h : ∀ a, (f a).sorted = f a)
    (o : Option α) : (ofOption f o).sorted = ofOption f o := by
  cases o with
  | none => rfl
  | some a => exact h a

/-! ## The order of members -/

/-- The second value is the first one with members of objects in another order. -/
inductive Reorders : Json → Json → Prop
  | refl (v : Json) : Reorders v v
  | array {items items' : List Json} (inside : List.Forall₂ Reorders items items') :
      Reorders (.array items) (.array items')
  | object {members members' members'' : List (String × Json)}
      (keys : members.map Prod.fst = members'.map Prod.fst)
      (inside : List.Forall₂ Reorders (members.map Prod.snd) (members'.map Prod.snd))
      (perm : members'.Perm members'') : Reorders (.object members) (.object members'')

/-- The values are equal but for the order of members of objects. -/
def Same (v w : Json) : Prop := ∃ u, v.Reorders u ∧ w.Reorders u

mutual

/-- Sorting does nothing to a value but to put members of objects into another order. -/
theorem reorders_sorted : (v : Json) → v.Reorders v.sorted
  | null => .refl _
  | bool _ => .refl _
  | number _ => .refl _
  | string _ => .refl _
  | array items => by
    rw [sorted_array]
    exact .array (reorders_sorted_items items)
  | object members => by
    -- The values are sorted first, under the same keys, and then the members are put into order.
    have hkeys : members.map Prod.fst = (sortedMembers members).map Prod.fst := by
      rw [sortedMembers_eq, List.map_map]
      rfl
    exact .object hkeys (reorders_sorted_members members) (Keyed.sort_perm _).symm

/-- Sorting puts members into another order inside of items, and does nothing else to them. -/
private theorem reorders_sorted_items :
    (items : List Json) → List.Forall₂ Reorders items (items.map sorted)
  | [] => .nil
  | item :: items => .cons (reorders_sorted item) (reorders_sorted_items items)

/-- Sorting puts members into another order inside of values of members, too. -/
private theorem reorders_sorted_members : (members : List (String × Json)) →
    List.Forall₂ Reorders (members.map Prod.snd) ((sortedMembers members).map Prod.snd)
  | [] => .nil
  | (_, value) :: members => .cons (reorders_sorted value) (reorders_sorted_members members)

end

/-- In every object inside the value, the keys of the members differ. -/
inductive DistinctKeys : Json → Prop
  | null : DistinctKeys .null
  | bool (b : Bool) : DistinctKeys (.bool b)
  | number (n : Int) : DistinctKeys (.number n)
  | string (s : String) : DistinctKeys (.string s)
  | array {items : List Json} (inside : ∀ v ∈ items, DistinctKeys v) : DistinctKeys (.array items)
  | object {members : List (String × Json)} (keys : (members.map Prod.fst).Nodup)
      (inside : ∀ m ∈ members, DistinctKeys m.2) : DistinctKeys (.object members)

/-- In every object inside the value, the keys of the members strictly increase. -/
inductive KeysIncrease : Json → Prop
  | null : KeysIncrease .null
  | bool (b : Bool) : KeysIncrease (.bool b)
  | number (n : Int) : KeysIncrease (.number n)
  | string (s : String) : KeysIncrease (.string s)
  | array {items : List Json} (inside : ∀ v ∈ items, KeysIncrease v) : KeysIncrease (.array items)
  | object {members : List (String × Json)} (order : (members.map Prod.fst).Pairwise (· < ·))
      (inside : ∀ m ∈ members, KeysIncrease m.2) : KeysIncrease (.object members)

/-- What may be missing has distinct keys if it has them when it is there. -/
theorem DistinctKeys.ofOption {α : Type} {f : α → Json} (h : ∀ a, (f a).DistinctKeys)
    (o : Option α) : (Json.ofOption f o).DistinctKeys := by
  cases o with
  | none => exact .null
  | some a => exact h a

/-- Keys that differ strictly increase once they are sorted. -/
theorem DistinctKeys.sorted {v : Json} (h : v.DistinctKeys) : v.sorted.KeysIncrease := by
  -- By induction on the value.  Under an object the order comes from its own keys, which differ.
  induction h with
  | null => exact .null
  | bool b => exact .bool b
  | number n => exact .number n
  | string s => exact .string s
  | array hinside ih =>
    rw [sorted_array]
    exact .array (List.forall_mem_map.mpr ih)
  | @object members hkeys hinside ih =>
    rw [sorted_object]
    refine .object ?_ (List.forall_mem_map.mpr fun m hm => ?_)
    · rw [List.map_map]
      exact List.pairwise_map.mpr (Keyed.sort_increases hkeys)
    · exact ih m ((Keyed.sort_perm members).mem_iff.mp hm)

end Json

/-! ## Tags -/

/-- A set has the elements of the list that it was made from. -/
private theorem SortedSet.mem_ofList {α : Type} [Ord α] [Std.TransOrd α] [Std.LawfulEqOrd α] {a : α}
    {l : List α} : a ∈ ofList l ↔ a ∈ l := by
  -- By induction on the list, for any set to start from.
  have hfold : ∀ s : SortedSet α, a ∈ l.foldl insert s ↔ a ∈ l ∨ a ∈ s := by
    induction l with
    | nil => simp
    | cons b l ih =>
      intro s
      rw [List.foldl_cons, ih, mem_insert, List.mem_cons, or_left_comm, or_assoc]
  rw [ofList, hfold]
  exact or_iff_left (not_mem_empty a)

namespace Tags

variable {tags tags' : Tags} {t : Tag}

/-- Each name with its values in increasing order. -/
def sortedValues (tags : Tags) : List (String × List String) :=
  tags.groups.map fun g => (g.1, (SortedSet.ofList g.2).toList)

/-- Each name with its values, names and values in increasing order. -/
def sortedGroups (tags : Tags) : List (String × List String) := Keyed.sort tags.sortedValues

/-- The report on tags, as groups with names and values in order. -/
theorem toJson_eq (tags : Tags) :
    tags.toJson = .object (tags.sortedGroups.map fun (name, values) =>
      (name, .array (values.map .string))) := by
  let f (values : List String) : Json := .array (values.map .string)
  -- The values are strings, with nothing to sort in them.
  have hstrings : ∀ values, (f values).sorted = f values := fun values => by
    rw [Json.sorted_array, List.map_map]
    rfl
  have hrecord : tags.toRecord = .object (tags.sortedValues.map fun g => (g.1, f g.2)) := by
    rw [toRecord, sortedValues, List.map_map]
    rfl
  rw [toJson, hrecord, Json.sorted_object, Keyed.sort_map f, List.map_map]
  simp only [Function.comp_def, hstrings]
  rfl

/-- No name stands there twice. -/
private theorem sortedValues_names (tags : Tags) : (tags.sortedValues.map Prod.fst).Nodup := by
  rw [sortedValues, List.map_map]
  exact tags.names_nodup

/-- The names strictly increase. -/
theorem sortedGroups_names (tags : Tags) : (tags.sortedGroups.map Prod.fst).Pairwise (· < ·) :=
  List.pairwise_map.mpr (Keyed.sort_increases tags.sortedValues_names)

/-- The tags are in the groups as they were. -/
theorem mem_sortedGroups {g : String × List String} (hg : g ∈ tags.sortedGroups) :
    g.2 ≠ [] ∧ g.2.Pairwise (· < ·) ∧ ∀ value ∈ g.2, ⟨g.1, value⟩ ∈ tags := by
  obtain ⟨⟨name, values⟩, hgroup, rfl⟩ :=
    List.mem_map.mp ((Keyed.sort_perm tags.sortedValues).mem_iff.mp hg)
  have hvalues : ∀ value, value ∈ (SortedSet.ofList values).toList ↔ value ∈ values :=
    fun value => SortedSet.mem_ofList
  -- A group is not empty, since the set has the values of a list that is not.
  refine ⟨?_, ?_, fun value hvalue => ⟨values, hgroup, (hvalues value).mp hvalue⟩⟩
  · obtain ⟨value, hvalue⟩ := List.exists_mem_of_ne_nil _ (tags.values_ne _ hgroup)
    exact List.ne_nil_of_mem ((hvalues value).mpr hvalue)
  · exact (SortedSet.ofList values).sorted.imp compareOfLessAndEq_eq_lt.mp

/-- The same tags, whatever their order. -/
def Same (tags tags' : Tags) : Prop := ∀ t, t ∈ tags ↔ t ∈ tags'

/-- A name that has values in one order of the tags has the same values in the other. -/
private theorem Same.exists_group (h : tags.Same tags') {name : String} {values : List String}
    (hg : (name, values) ∈ tags.groups) :
    ∃ values', (name, values') ∈ tags'.groups ∧
      SortedSet.ofList values' = SortedSet.ofList values := by
  obtain ⟨value, hvalue⟩ := List.exists_mem_of_ne_nil _ (tags.values_ne _ hg)
  obtain ⟨values', hg', -⟩ := (h ⟨name, value⟩).mp ⟨values, hg, hvalue⟩
  refine ⟨values', hg', SortedSet.ext_mem fun x => ?_⟩
  -- A name stands in one group only, so all of its values are there.
  have hunique : ∀ {tags : Tags} {vs ws : List String}, (name, vs) ∈ tags.groups →
      (name, ws) ∈ tags.groups → vs = ws := fun hv hw =>
    (Prod.mk.inj (List.inj_on_of_nodup_map (Tags.names_nodup _) hv hw rfl)).2
  rw [SortedSet.mem_ofList, SortedSet.mem_ofList]
  constructor
  · intro hx
    obtain ⟨ws, hws, hx⟩ := (h ⟨name, x⟩).mpr ⟨values', hg', hx⟩
    exact hunique hws hg ▸ hx
  · intro hx
    obtain ⟨ws, hws, hx⟩ := (h ⟨name, x⟩).mp ⟨values, hg, hx⟩
    exact hunique hws hg' ▸ hx

/-- Of two collections with the same tags either may come first. -/
theorem Same.symm (h : tags.Same tags') : tags'.Same tags := fun t => (h t).symm

/-- A name stands with the same values, once these are in order. -/
private theorem Same.mem_sortedValues (h : tags.Same tags') {g : String × List String}
    (hg : g ∈ tags.sortedValues) : g ∈ tags'.sortedValues := by
  obtain ⟨⟨name, values⟩, hgroup, rfl⟩ := List.mem_map.mp hg
  obtain ⟨values', hgroup', hvalues⟩ := h.exists_group hgroup
  refine List.mem_map.mpr ⟨(name, values'), hgroup', ?_⟩
  simp only [hvalues]

/-- The same tags have the same report. -/
theorem toJson_eq_of_same (h : tags.Same tags') : tags.toJson = tags'.toJson := by
  have hnodup := tags.sortedValues_names
  have hnodup' := tags'.sortedValues_names
  -- The groups are the same ones up to their order, which sorting by name takes away.
  have hperm : tags.sortedValues.Perm tags'.sortedValues :=
    (List.perm_ext_iff_of_nodup hnodup.of_map hnodup'.of_map).mpr
      fun g => ⟨h.mem_sortedValues, h.symm.mem_sortedValues⟩
  have hsorted : tags.sortedGroups = tags'.sortedGroups := Keyed.sort_eq_of_perm hperm hnodup
  rw [toJson_eq, toJson_eq, hsorted]

end Tags

/-! ## Reports -/

/-- A string that may be missing has nothing to sort in it. -/
private theorem sorted_ofOption_string (o : Option String) :
    (Json.ofOption .string o).sorted = .ofOption .string o :=
  Json.sorted_ofOption (fun _ => rfl) o

/-- The report on a scope has the reports on its parts in order of their keys. -/
theorem Registry.describe_eq_sort {r : Registry} {i : Nat} {s : Scope} (hs : r.get? i = some s) :
    r.describe i = .object (Keyed.sort [
      ("id", .number s.id),
      ("name", .ofOption .string s.name),
      ("fqn", .ofOption .string (r.qualifiedName i)),
      ("type", .string s.type),
      ("status", .string s.status.text),
      ("tags", s.tags.toJson),
      ("parent_id", .ofOption (fun p => .number p.id) (s.parent.bind r.get?)),
      ("location", s.location.toJson)]) := by
  -- Of its parts only the tags and the location are objects, and sorted they are their reports.
  have hparent : (Json.ofOption (fun p => .number p.id) (s.parent.bind r.get?)).sorted =
      .ofOption (fun p => .number p.id) (s.parent.bind r.get?) :=
    Json.sorted_ofOption (fun _ => rfl) _
  rw [describe, toRecord, hs]
  simp only [Json.sorted, Json.sortedMembers, sorted_ofOption_string, hparent]
  rfl

/-- The report on a result has its members sorted by key. -/
theorem Result.toJson_eq_sort (r : Result) :
    r.toJson = .object (Keyed.sort [
      ("source_file", .ofOption .string r.file),
      ("token_count", .number r.tokens),
      ("skipped_tokens", .number r.skipped),
      ("entities", .array (r.all.map r.registry.describe))]) := by
  have hentities : Json.sortedItems (r.all.map r.registry.toRecord) =
      r.all.map r.registry.describe := by
    rw [Json.sortedItems_eq, List.map_map]
    rfl
  rw [toJson, toRecord]
  simp only [Json.sorted, Json.sortedMembers, sorted_ofOption_string, hentities]

/-! ## Records -/

open Json (DistinctKeys)

/-- The keys of a record of tags are their names, which differ. -/
theorem Tags.toRecord_distinctKeys (tags : Tags) : tags.toRecord.DistinctKeys := by
  refine .object ?_ ?_
  · rw [List.map_map]
    exact tags.names_nodup
  · simp only [List.forall_mem_map]
    exact fun g _ => .array (by simp only [List.forall_mem_map]; exact fun value _ => .string value)

/-- The keys in the record of a location differ. -/
theorem Location.toRecord_distinctKeys (l : Location) : l.toRecord.DistinctKeys := by
  unfold Location.toRecord
  split
  · exact .null
  · have hkeys : ["lineno", "col_offset", "source_file"].Nodup := by decide
    refine .object hkeys ?_
    simp only [List.forall_mem_cons]
    exact ⟨.number _, .number _, .ofOption .string _, by simp⟩

/-- The keys in the record of a scope are distinct. -/
theorem Registry.toRecord_distinctKeys (r : Registry) (i : Nat) :
    (r.toRecord i).DistinctKeys := by
  unfold Registry.toRecord
  split
  · exact .null
  · next s _ =>
    have hkeys : ["id", "name", "fqn", "type", "status", "tags", "parent_id",
        "location"].Nodup := by decide
    refine .object hkeys ?_
    simp only [List.forall_mem_cons]
    exact ⟨.number _, .ofOption .string _, .ofOption .string _, .string _, .string _,
      s.tags.toRecord_distinctKeys, .ofOption (fun _ => .number _) _,
      s.location.toRecord_distinctKeys, by simp⟩

/-- The keys in the record of a result are distinct. -/
theorem Result.toRecord_distinctKeys (r : Result) : r.toRecord.DistinctKeys := by
  have hentities : (Json.array (r.all.map r.registry.toRecord)).DistinctKeys := by
    refine .array ?_
    simp only [List.forall_mem_map]
    exact fun i _ => r.registry.toRecord_distinctKeys i
  have hkeys : ["source_file", "token_count", "skipped_tokens", "entities"].Nodup := by decide
  refine .object hkeys ?_
  simp only [List.forall_mem_cons]
  exact ⟨.ofOption .string _, .number _, .number _, hentities, by simp⟩

end ScopeTags
