import ScopeTags.Proofs.JsonReading
import ScopeTags.Proofs.SortedReport

/-!
# Reports read back

The text of a report is JSON for the value that the report is, so that two reports with one text are
one report, and two records with one text differ at most in the order of members.  The members of
every object stand in the increasing order of their keys.

## Key results

- `Json.DistinctKeys.readsBack`: the text of a record whose keys are sorted
- `report_readsBack`: what a reader of the text learns
-/

namespace ScopeTags

namespace Json

/-- The text of `v` stands for `v`, with its keys in order and in allowed characters. -/
structure ReadsBack (indent : Option Int) (v : Json) : Prop where
  value : read? (v.render indent) = some v
  keys : v.KeysIncrease
  characters : ∀ c ∈ (v.render indent).toList, Allowed indent c

/-- A record in which no key comes twice reads back once its keys are sorted. -/
theorem DistinctKeys.readsBack {v : Json} (h : v.DistinctKeys) (indent : Option Int) :
    v.sorted.ReadsBack indent where
  value := read?_render indent v.sorted
  keys := h.sorted
  characters := by
    rw [render, String.toList_ofList]
    exact fits_chars v.sorted 0

/-- Values that differ have texts that differ, even with other indentations. -/
private theorem render_ne {v w : Json} (h : v ≠ w) (indent indent' : Option Int) :
    v.render indent ≠ w.render indent' := by
  intro htext
  -- One text cannot be read as two values.
  have hread := read?_render indent v
  rw [htext, read?_render] at hread
  exact h (Option.some.inj hread).symm

/-- Values that differ by more than the order of members differ when they are sorted. -/
private theorem sorted_ne_of_not_same {v w : Json} (h : ¬v.Same w) :
    v.sorted ≠ w.sorted := fun heq =>
  h ⟨v.sorted, v.reorders_sorted, heq ▸ w.reorders_sorted⟩

end Json

/-- With any indentation, the text of a report on a result and the text of a report on one of its
    scopes are read back as the reports they are, which are the records of the result and of the
    scope but for the order of members.  In both, keys increase throughout and characters are
    printable ASCII, or newlines if there is an indentation.  So different reports have different
    texts, and so have records that differ by more than the order of members. -/
theorem report_readsBack (indent : Option Int) :
    (∀ result : Result, (result.toJson.ReadsBack indent ∧
      ∀ i, (result.registry.describe i).ReadsBack indent) ∧
      result.toRecord.Reorders result.toJson ∧
      ∀ i, (result.registry.toRecord i).Reorders (result.registry.describe i)) ∧
    (∀ result result' : Result,
      (result.toJson ≠ result'.toJson ∨ ¬result.toRecord.Same result'.toRecord) →
      result.toJson.render indent ≠ result'.toJson.render indent) ∧
    ∀ (r r' : Registry) (i i' : Nat),
      (r.describe i ≠ r'.describe i' ∨ ¬(r.toRecord i).Same (r'.toRecord i')) →
      (r.describe i).render indent ≠ (r'.describe i').render indent := by
  refine ⟨fun result =>
      ⟨⟨?_, fun i => ?_⟩, Json.reorders_sorted _, fun i => Json.reorders_sorted _⟩,
    fun result result' h => ?_, fun r r' i i' h => ?_⟩
  · exact result.toRecord_distinctKeys.readsBack indent
  · exact (result.registry.toRecord_distinctKeys i).readsBack indent
  -- Records that differ by more than the order of members still differ once they are sorted.
  · exact Json.render_ne (h.elim id Json.sorted_ne_of_not_same) indent indent
  · exact Json.render_ne (h.elim id Json.sorted_ne_of_not_same) indent indent

/-- A letter and the escape that it is written as are told apart, here in the name of a file and of
    the scope in it, on lines without indentation. -/
theorem report_readsBack_letter :
    let letter : Result :=
      ⟨⟨[{ id := 0, name := some "é", status := .named }]⟩, some "é.rb", 2, 0⟩
    let spelled : Result :=
      ⟨⟨[{ id := 0, name := some "\\u00e9", status := .named }]⟩, some "\\u00e9.rb", 2, 0⟩
    letter.toJson ≠ spelled.toJson ∧
      letter.registry.describe 0 ≠ spelled.registry.describe 0 ∧
      letter.toJson.render (some (-1)) ≠ spelled.toJson.render (some (-1)) ∧
      (letter.registry.describe 0).render (some (-1))
        ≠ (spelled.registry.describe 0).render (some (-1)) ∧
      Json.read? (letter.toJson.render (some (-1))) = some letter.toJson := by
  intro letter spelled
  -- A look-up tells the two reports apart, so neither of them has to be written out.
  have hfile : letter.toJson ≠ spelled.toJson := fun h => by
    have hmember := congrArg (Json.member? "source_file") h
    rw [Result.toJson_eq_sort, Result.toJson_eq_sort, Json.member?_sort, Json.member?_sort]
      at hmember
    have hfiles : some (Json.string "é.rb") = some (.string "\\u00e9.rb") := hmember
    simp at hfiles
  have hname : letter.registry.describe 0 ≠ spelled.registry.describe 0 := fun h => by
    have hmember := congrArg (Json.member? "name") h
    rw [Registry.describe_eq_sort (r := letter.registry) rfl,
      Registry.describe_eq_sort (r := spelled.registry) rfl, Json.member?_sort,
      Json.member?_sort] at hmember
    have hnames : some (Json.string "é") = some (.string "\\u00e9") := hmember
    simp at hnames
  obtain ⟨hread, hresult, hscope⟩ := report_readsBack (some (-1))
  exact ⟨hfile, hname, hresult letter spelled (.inl hfile),
    hscope letter.registry spelled.registry 0 0 (.inl hname), (hread letter).1.1.value⟩

end ScopeTags
