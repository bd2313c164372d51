import ScopeTags.Proofs.PassingOver
import ScopeTags.Proofs.SortedReport

/-!
# Reports that can be read on their own

The report on a result lists its scopes in the order they were made, and a scope refers to the one
around it by id.  Nothing else is needed to tell which scope lies in which and what their qualified
names are.  That rests on what holds throughout a scan: ids are places in the list, a scope comes
after the one around it, and that one has a name.

## Key results

- `Scope.Lasting`: properties that single scopes keep, whatever the tokens are
- `Registry.member?_describe`: what stands under the keys of a report
- `Registry.nameIn_reports`: qualified names put together from the list alone
- `report_selfContained`: what that means for the report on a scan
-/

namespace ScopeTags

/-! ## Single scopes -/

/-- A property that every new scope has and that tokens of these roles do not take away. -/
structure Scope.Lasting (roles : Role → Prop) (P : Scope → Prop) : Prop where
  new : ∀ id arena parent, P { id, arena, parent }
  advances : ∀ {s s' : Scope} {role : Role}, roles role → P s → s.Advances role s' → P s'
  shut : ∀ {s : Scope}, P s → P s.shut

namespace Scope.Lasting

variable {roles : Role → Prop} {P : Scope → Prop} (h : Lasting roles P)

/-- A write keeps the property, if the new scope has it. -/
theorem set {r : Registry} {s : Scope} (hr : ∀ e ∈ r.scopes, P e) (c : Nat) (hs : P s) :
    ∀ e ∈ (r.set c s).scopes, P e := by
  intro e he
  rcases List.mem_or_eq_of_mem_set he with he | rfl
  · exact hr e he
  · exact hs

/-- A new scope that has the property leaves it true of all. -/
theorem push {r : Registry} {s : Scope} (hr : ∀ e ∈ r.scopes, P e) (hs : P s) :
    ∀ e ∈ (r.push s).scopes, P e := by
  intro e he
  rcases List.mem_append.mp he with he | he
  · exact hr e he
  · rw [List.mem_singleton.mp he]
    exact hs

include h

/-- The response to a token of these roles leaves the property true of all scopes. -/
theorem respond {r : Registry} {c : Nat} {s : Scope} {role : Role} {x : Registry × Option Nat}
    (hr : ∀ e ∈ r.scopes, P e) (hs : r.get? c = some s) (hopen : s.status ≠ .closed)
    (hrole : roles role) (hx : r.respond c s role = .ok x) : ∀ e ∈ x.1.scopes, P e := by
  have hcurrent : P s := hr s (List.mem_of_getElem? hs)
  have hinner : P (r.inner c) := h.new _ _ _
  -- Nothing changes, the current scope does, one is opened with or without an advance, or one is
  -- shut.
  rcases Registry.respond_cases hopen hx with
    rfl | ⟨s', hadv, rfl⟩ | ⟨s', -, hadv | rfl, rfl⟩ | ⟨-, rfl⟩
  · exact hr
  · exact set hr c (h.advances hrole hcurrent hadv)
  · exact push hr (h.advances hrole hinner hadv)
  · exact push hr hinner
  · exact set hr c (h.shut hcurrent)

/-- The scope that is opened where none is left is a new one. -/
theorem moved {x : Registry × Option Nat} (hx : ∀ e ∈ x.1.scopes, P e) (s : Scan) :
    ∀ e ∈ (s.moved x).registry.scopes, P e := by
  obtain ⟨registry, receiver⟩ := x
  cases receiver with
  | some i => exact hx
  | none => exact push hx (h.new _ _ _)

/-- One token of these roles keeps the property. -/
theorem feed {o : Scan.Options} {t : Token} {s s' : Scan} {notices : List Notice}
    (hcoherent : s.Coherent o.settings.policy) (hr : ∀ e ∈ s.registry.scopes, P e)
    (hrole : roles (t.role o.settings.accepts)) (hf : s.feed o t = .ok (s', notices)) :
    ∀ e ∈ s'.registry.scopes, P e := by
  obtain ⟨e, he, ⟨x, hx, rfl⟩ | ⟨fault, _, _, rfl⟩ | ⟨p, e', _, _, _, _, he', _, rfl⟩⟩ :=
    Scan.feed_cases hcoherent hf
  · exact h.moved (h.respond hr he (hcoherent.current_status_ne he) hrole hx) _
  · exact hr
  · -- The `end` goes to the parent and closes it.
    have hshut := h.shut (hr e' (List.mem_of_getElem? he'))
    exact h.moved (x := (s.registry.set p e'.shut, e'.parent)) (set hr p hshut) _

/-- All scopes have the property throughout a scan. -/
theorem runFrom {o : Scan.Options} {s : Scan} {events : List Source.Event}
    (hcoherent : s.Coherent o.settings.policy) (hr : ∀ e ∈ s.registry.scopes, P e)
    (hroles : ∀ t ∈ events.filterMap Source.Event.token?, roles (t.role o.settings.accepts)) :
    ∀ e ∈ (s.runFrom o events).final.registry.scopes, P e := by
  -- The run goes event by event; only a token that is fed changes the scopes.
  fun_induction Scan.runFrom o s events with
  | case1 s => exact hr
  | case2 s event events fault hfault => exact hr
  | case3 s event events hfault htoken run ih =>
    exact ih hcoherent hr fun t ht => hroles t (by simpa [htoken] using ht)
  | case4 s event events hfault t htoken hcancel => exact hr
  | case5 s event events hfault t htoken hcancel fault hfeed => exact hr
  -- Here a token is fed.  Its role is one of those allowed, and so are those of the tokens after
  -- it.
  | case6 s event events hfault t htoken hcancel next notices hfeed run ih =>
    have hmem : ∀ u, u = t ∨ u ∈ events.filterMap Source.Event.token? →
        roles (u.role o.settings.accepts) := fun u hu => hroles u (by simpa [htoken] using hu)
    have hnext := h.feed hcoherent hr (hmem t (.inl rfl)) hfeed
    exact ih (Scan.feed_coherent hcoherent hfeed) hnext fun u hu => hmem u (.inr hu)

end Scope.Lasting

/-- A scope without a name has no location, and all of its tags are among those given. -/
structure Scope.Furnished (given : Tag → Prop) (s : Scope) : Prop where
  location_eq : s.name = none → s.location = {}
  given : ∀ tag ∈ s.tags, given tag

/-- Only tokens that tag add tags, and a name comes with its location. -/
private theorem Scope.furnished_lasting (given : Tag → Prop) :
    Lasting (fun role => ∀ tag, role = .tag tag → given tag) (Furnished given) where
  new id arena parent := ⟨fun _ => rfl, fun tag htag => absurd htag (Tags.not_mem_empty tag)⟩
  advances {s s' role} hrole hs hadv := by
    cases hadv with
    | @tag tag hst =>
      refine ⟨hs.location_eq, fun tag' htag' => ?_⟩
      rcases Tags.mem_insert.mp htag' with rfl | htag'
      · exact hrole _ rfl
      · exact hs.given tag' htag'
    | opens hn hc => exact ⟨hs.location_eq, hs.given⟩
    | names hst => exact ⟨fun hnone => (by cases hnone), hs.given⟩
  shut hs := ⟨hs.location_eq, hs.given⟩

/-! ## Reading a report -/

namespace Json

/-- The text, where the value is one. -/
def text? : Json → Option String
  | string s => some s
  | _ => none

/-- The number, where the value is one that can be a place in a list. -/
def index? : Json → Option Nat
  | number (.ofNat n) => some n
  | _ => none

end Json

namespace Report

/-- The name in the report on a scope. -/
def name? (e : Json) : Option String := (e.member? "name").bind Json.text?

/-- The place of the scope around it. -/
def parent? (e : Json) : Option Nat := (e.member? "parent_id").bind Json.index?

/-- What stands between the names around the scope and its own. -/
def separator (e : Json) : String :=
  if (e.member? "type").bind Json.text? = some "instance_method" then "#" else "::"

/-- The names on the way from an outermost scope to the one at place `i`, all of which must be
    there. -/
def namesTo (entities : List Json) (i : Nat) : Option (List String) := do
  let e ← entities[i]?
  let name ← name? e
  match parent? e with
  | none => some [name]
  | some p => if p < i then (namesTo entities p).map (· ++ [name]) else none
termination_by i

/-- The qualified name of the scope at place `i`, put together from the list alone. -/
def nameIn (entities : List Json) (i : Nat) : Option String := do
  let e ← entities[i]?
  let name ← name? e
  match parent? e with
  | none => some name
  | some p =>
    (namesTo entities p).map fun names => String.intercalate "::" names ++ separator e ++ name

/-- What a reader may rely on in the report on the scope at place `i` of a list, where the tags are
    among those given. -/
structure Sound (given : Tag → Prop) (entities : List Json) (i : Nat) (e : Json) : Prop where
  id_eq : e.member? "id" = some (.number i)
  /-- There is no scope around it, or there is one that comes before it and has a name. -/
  parent : e.member? "parent_id" = some .null ∨
    ∃ (p : Nat) (outer : Json) (name : String), p < i ∧
      e.member? "parent_id" = some (.number p) ∧ entities[p]? = some outer ∧
      outer.member? "name" = some (.string name)
  /-- It has a name, a qualified one, and a status that says so, or none of these and no
      location. -/
  naming : (∃ name qualified status, e.member? "name" = some (.string name) ∧
      e.member? "fqn" = some (.string qualified) ∧ e.member? "status" = some (.string status) ∧
      status ∈ ["named", "closed"]) ∨
    (∃ status, e.member? "name" = some .null ∧ e.member? "fqn" = some .null ∧
      e.member? "status" = some (.string status) ∧ status ∉ ["named", "closed"] ∧
      e.member? "location" = some .null)
  qualified_eq : e.member? "fqn" = some (.ofOption .string (nameIn entities i))
  tags : ∃ groups : List (String × List String),
    e.member? "tags" =
        some (.object (groups.map fun (name, values) => (name, .array (values.map .string)))) ∧
      (groups.map Prod.fst).Pairwise (· < ·) ∧
      ∀ g ∈ groups, g.2 ≠ [] ∧ g.2.Pairwise (· < ·) ∧ ∀ value ∈ g.2, given ⟨g.1, value⟩

end Report

namespace Registry

/-- The reports on all scopes. -/
def reports (r : Registry) : List Json := (List.range r.size).map r.describe

section Described

variable {r : Registry} {i : Nat} {s : Scope}

/-- The report on a scope is at its place. -/
private theorem getElem?_reports (hs : r.get? i = some s) :
    r.reports[i]? = some (r.describe i) := by
  simp [reports, lt_size_of_get? hs]

/-- Where there is no scope there is no report. -/
private theorem getElem?_reports_of_none (hs : r.get? i = none) : r.reports[i]? = none := by
  have hle : r.size ≤ i := List.getElem?_eq_none_iff.mp hs
  simpa [reports] using hle

/-- Every report is that on a scope. -/
private theorem exists_of_reports {e : Json} (h : r.reports[i]? = some e) :
    ∃ s, r.get? i = some s ∧ e = r.describe i := by
  cases hs : r.get? i with
  | none =>
    rw [getElem?_reports_of_none hs] at h
    cases h
  | some s =>
    rw [getElem?_reports hs] at h
    exact ⟨s, rfl, (Option.some.inj h).symm⟩

/-- Under the keys of the report on a scope stand its fields. -/
theorem member?_describe (hs : r.get? i = some s) (key : String) :
    (r.describe i).member? key = [
      ("id", .number s.id),
      ("name", .ofOption .string s.name),
      ("fqn", .ofOption .string (r.qualifiedName i)),
      ("type", .string s.type),
      ("status", .string s.status.text),
      ("tags", s.tags.toJson),
      ("parent_id", .ofOption (fun p => .number p.id) (s.parent.bind r.get?)),
      ("location", s.location.toJson)].lookup key := by
  rw [describe_eq_sort hs, Json.member?_sort]

/-- The name in the report on a scope is its name. -/
private theorem name?_describe (hs : r.get? i = some s) : Report.name? (r.describe i) = s.name := by
  have hmember : (r.describe i).member? "name" = some (.ofOption .string s.name) :=
    member?_describe hs "name"
  rw [Report.name?, hmember]
  cases s.name <;> rfl

/-- A scope refers to the one around it by its place. -/
private theorem member?_parent_id (harranged : r.Arranged) (hnamed : r.ParentsNamed)
    (hs : r.get? i = some s) :
    (r.describe i).member? "parent_id" = some (.ofOption (fun p : Nat => .number p) s.parent) := by
  have hmember : (r.describe i).member? "parent_id" =
      some (.ofOption (fun p => .number p.id) (s.parent.bind r.get?)) :=
    member?_describe hs "parent_id"
  rw [hmember]
  cases hp : s.parent with
  | none => rfl
  | some p =>
    -- The parent is there, and its id is its place.
    obtain ⟨e, he, -⟩ := hnamed i s p hs hp
    rw [Option.bind_some, he]
    show some (Json.number e.id) = some (.number p)
    rw [(harranged p e he).id_eq]

/-- The place in it is that of the parent. -/
private theorem parent?_describe (harranged : r.Arranged) (hnamed : r.ParentsNamed)
    (hs : r.get? i = some s) : Report.parent? (r.describe i) = s.parent := by
  rw [Report.parent?, member?_parent_id harranged hnamed hs]
  cases s.parent <;> rfl

/-- The separator follows from the type in the report. -/
private theorem separator_describe (hs : r.get? i = some s) :
    Report.separator (r.describe i) =
      if s.construct = some .instanceMethod then "#" else "::" := by
  have hmember : (r.describe i).member? "type" = some (.string s.type) :=
    member?_describe hs "type"
  rw [Report.separator, hmember, Scope.type]
  cases s.construct with
  | none => rfl
  | some construct => cases construct <;> rfl

/-- The names on the way to a scope that has one are all in the reports. -/
private theorem namesTo_reports (harranged : r.Arranged) (hnamed : r.ParentsNamed)
    (hs : r.get? i = some s) (hname : s.name.isSome = true) :
    Report.namesTo r.reports i = some (r.path i) := by
  -- Outwards from `i`: each scope on the way has another one inside of it, so it has a name.
  induction i using Nat.strongRecOn generalizing s with
  | ind i ih =>
    obtain ⟨name, hname⟩ := Option.isSome_iff_exists.mp hname
    rw [Report.namesTo, getElem?_reports hs, path, hs]
    simp only [Option.bind_eq_bind, Option.bind_some, name?_describe hs, hname,
      parent?_describe harranged hnamed hs]
    cases hp : s.parent with
    | none => rfl
    | some p =>
      obtain ⟨e, he, hename⟩ := hnamed i s p hs hp
      have hlt := (harranged i s hs).parent_lt p hp
      simp only [if_pos hlt, ih p hlt he hename]
      rfl

/-- There is a name on the way to a scope that has one. -/
private theorem path_ne_nil (hs : r.get? i = some s) (hname : s.name.isSome = true) :
    r.path i ≠ [] := by
  obtain ⟨name, hname⟩ := Option.isSome_iff_exists.mp hname
  rw [path, hs]
  simp [hname]

/-- The status says whether a scope has a name. -/
theorem isNamed_eq (harranged : r.Arranged) (hs : r.get? i = some s) :
    s.isNamed = s.name.isSome := by
  rw [Bool.eq_iff_iff, (harranged i s hs).name_iff, Scope.isNamed, decide_eq_true_eq]

/-- The qualified name is the one that can be put together from the reports. -/
theorem nameIn_reports (harranged : r.Arranged) (hnamed : r.ParentsNamed) (i : Nat) :
    Report.nameIn r.reports i = r.qualifiedName i := by
  cases hs : r.get? i with
  | none =>
    rw [Report.nameIn, getElem?_reports_of_none hs, qualifiedName, hs]
    rfl
  | some s =>
    rw [Report.nameIn, getElem?_reports hs, qualifiedName, hs]
    simp only [Option.bind_eq_bind, Option.bind_some, name?_describe hs,
      parent?_describe harranged hnamed hs, separator_describe hs, isNamed_eq harranged hs]
    cases hname : s.name with
    | none => rfl
    | some name =>
      simp only [Option.isSome_some, Option.bind_some, if_true]
      cases hp : s.parent with
      | none => rfl
      | some p =>
        obtain ⟨e, he, hename⟩ := hnamed i s p hs hp
        simp only [namesTo_reports harranged hnamed he hename, Option.map_some, Option.elim_some]
        -- The names around the scope are joined first, of which there is one at least.
        cases hpath : r.path p with
        | nil => exact absurd hpath (path_ne_nil he hename)
        | cons first names => rfl

/-- Without a name there is no qualified one. -/
private theorem qualifiedName_of_none (harranged : r.Arranged) (hs : r.get? i = some s)
    (hname : s.name = none) : r.qualifiedName i = none := by
  have hst := isNamed_eq harranged hs
  rw [hname] at hst
  simp [qualifiedName, hs, hst]

/-- With a name there is one, whatever is around the scope. -/
private theorem exists_qualifiedName (harranged : r.Arranged) (hs : r.get? i = some s)
    {name : String} (hname : s.name = some name) :
    ∃ qualified, r.qualifiedName i = some qualified := by
  have hst := isNamed_eq harranged hs
  rw [hname] at hst
  simp only [qualifiedName, hs, hst, hname, Option.isSome_some, if_true]
  split
  · exact ⟨name, rfl⟩
  · exact ⟨_, rfl⟩

/-- The parents of all scopes are in the reports. -/
private theorem map_parent?_reports (harranged : r.Arranged) (hnamed : r.ParentsNamed) :
    r.reports.map Report.parent? = r.scopes.map (·.parent) := by
  apply List.ext_getElem?
  intro i
  rw [List.getElem?_map, List.getElem?_map]
  cases hs : r.get? i with
  | none =>
    rw [getElem?_reports_of_none hs, show r.scopes[i]? = none from hs]
    rfl
  | some s =>
    rw [getElem?_reports hs, show r.scopes[i]? = some s from hs, Option.map_some, Option.map_some,
      parent?_describe harranged hnamed hs]

/-- The report on every scope of a scan can be relied on. -/
private theorem sound_describe {given : Tag → Prop} (harranged : r.Arranged)
    (hnamed : r.ParentsNamed) (hs : r.get? i = some s) (hfurnished : s.Furnished given) :
    Report.Sound given r.reports i (r.describe i) where
  id_eq := by
    have hmember : (r.describe i).member? "id" = some (.number s.id) := member?_describe hs "id"
    rw [hmember, (harranged i s hs).id_eq]
  parent := by
    rw [member?_parent_id harranged hnamed hs]
    cases hp : s.parent with
    | none => exact .inl rfl
    | some p =>
      obtain ⟨e, he, hename⟩ := hnamed i s p hs hp
      obtain ⟨name, hname⟩ := Option.isSome_iff_exists.mp hename
      have hmember : (r.describe p).member? "name" = some (.ofOption .string e.name) :=
        member?_describe he "name"
      rw [hname] at hmember
      exact .inr ⟨p, _, name, (harranged i s hs).parent_lt p hp, rfl, getElem?_reports he, hmember⟩
  naming := by
    have hmember : (r.describe i).member? "name" = some (.ofOption .string s.name) ∧
        (r.describe i).member? "fqn" = some (.ofOption .string (r.qualifiedName i)) ∧
        (r.describe i).member? "status" = some (.string s.status.text) ∧
        (r.describe i).member? "location" = some s.location.toJson :=
      ⟨member?_describe hs _, member?_describe hs _, member?_describe hs _,
        member?_describe hs _⟩
    obtain ⟨hname, hqualified, hstatus, hlocation⟩ := hmember
    have hst := isNamed_eq harranged hs
    cases hs' : s.name with
    | none =>
      -- No name, so the status is one of those before it.
      right
      rw [hs'] at hname hst
      rw [qualifiedName_of_none harranged hs hs'] at hqualified
      rw [hfurnished.location_eq hs'] at hlocation
      refine ⟨s.status.text, hname, hqualified, hstatus, ?_, hlocation⟩
      cases hcase : s.status <;> simp_all [Scope.isNamed, Status.text]
    | some name =>
      -- A name, so the status is one of the two after it.
      left
      obtain ⟨qualified, hq⟩ := exists_qualifiedName harranged hs hs'
      rw [hs'] at hname hst
      rw [hq] at hqualified
      refine ⟨name, qualified, s.status.text, hname, hqualified, hstatus, ?_⟩
      cases hcase : s.status <;> simp_all [Scope.isNamed, Status.text]
  qualified_eq := by
    rw [nameIn_reports harranged hnamed i]
    exact member?_describe hs "fqn"
  tags := by
    have hmember : (r.describe i).member? "tags" = some s.tags.toJson := member?_describe hs "tags"
    rw [hmember, s.tags.toJson_eq]
    refine ⟨s.tags.sortedGroups, rfl, s.tags.sortedGroups_names, fun g hg => ?_⟩
    obtain ⟨hne, hincreasing, hmem⟩ := Tags.mem_sortedGroups hg
    exact ⟨hne, hincreasing, fun value hvalue => hfurnished.given _ (hmem value hvalue)⟩

end Described

end Registry

/-- A result lists the reports on all of its scopes. -/
private theorem Result.member?_entities (result : Result) :
    result.toJson.member? "entities" = some (.array result.registry.reports) := by
  rw [toJson_eq_sort, Json.member?_sort]
  rfl

/-- The tag is one that a comment among the tokens carries, and its name is of interest. -/
def CarriedBy (accepts : String → Bool) (tokens : List Token) (tag : Tag) : Prop :=
  ∃ t ∈ tokens, t.isTagComment = true ∧ t.tag = tag ∧ accepts tag.name = true

/-- What is known of the scopes where a scan stops. -/
private theorem Scan.run_furnished (o : Options) (events : List Source.Event) :
    (run o events).final.Sound o.settings.policy ∧
      ∀ s ∈ (run o events).final.registry.scopes, s.Furnished
        (CarriedBy o.settings.accepts (events.filterMap Source.Event.token?)) := by
  constructor
  · obtain ⟨hsound, -⟩ := runFrom_precedes (start_sound o.settings.policy) events
    exact hsound _ (by simp [run])
  · refine (Scope.furnished_lasting _).runFrom (start_coherent o.settings.policy) ?_ ?_
    · intro s hs
      rw [List.mem_singleton.mp hs]
      exact (Scope.furnished_lasting _).new _ _ _
    · intro t ht tag htag
      obtain ⟨hcomment, haccepts, rfl⟩ := Token.role_eq_tag_iff.mp htag
      exact ⟨t, ht, hcomment, rfl, haccepts⟩

/-- The report on a scan that came to its end, whatever its input and its options, can be read on
    its own.  It is the record of the result with its keys sorted.  Every scope has its place as id;
    the one around it comes before it and has a name; a name, a qualified name and a status that
    says so come together, and a scope without them has no location; the values of its tags are
    carried by comments of the input and are listed in increasing order, under each tag at least
    one.  The list alone tells the parents of all scopes and their qualified names. -/
theorem report_selfContained (o : Scan.Options) (input : Input) (result : Result)
    (h : (input.scan o).result? o = .ok result) :
    result.toRecord.Reorders result.toJson ∧
    ∃ entities, result.toJson.member? "entities" = some (.array entities) ∧
      (∀ i e, entities[i]? = some e → Report.Sound
        (CarriedBy o.settings.accepts ((input.events o.file).filterMap Source.Event.token?))
        entities i e) ∧
      entities.map Report.parent? = result.registry.scopes.map (·.parent) ∧
      ∀ i, Report.nameIn entities i = result.registry.qualifiedName i := by
  obtain ⟨-, rfl⟩ := Run.result?_eq_ok_iff.mp h
  obtain ⟨⟨hcoherent, hnamed⟩, hfurnished⟩ := Scan.run_furnished o (input.events o.file)
  have harranged : (Scan.run o (input.events o.file)).final.registry.Arranged :=
    hcoherent.arranged
  refine ⟨Json.reorders_sorted _, (Scan.run o (input.events o.file)).final.registry.reports,
    Result.member?_entities _, ?_, Registry.map_parent?_reports harranged hnamed, fun i => ?_⟩
  · intro i e he
    obtain ⟨s, hs, rfl⟩ := Registry.exists_of_reports he
    exact Registry.sound_describe harranged hnamed hs (hfurnished s (List.mem_of_getElem? hs))
  · exact Registry.nameIn_reports harranged hnamed i

/-- A module with a method, and the outermost scope that awaits what may follow. -/
theorem report_selfContained_method :
    let o : Scan.Options := {}
    let input : Input := .source "# @domain: Billing\nmodule Foo\n  def bar\n  end\nend\n"
    ∃ result entities, (input.scan o).result? o = .ok result ∧
      result.toJson.member? "entities" = some (.array entities) ∧
      entities.map Report.parent? = [none, some 0, none] ∧
      Report.nameIn entities 1 = some "Foo#bar" := by
  intro o input
  have hscan : (input.scan o).fault = none ∧
      (input.scan o).final.registry.scopes.map (·.parent) = [none, some 0, none] ∧
      (input.scan o).final.registry.qualifiedName 1 = some "Foo#bar" := by
    decide +kernel
  obtain ⟨hfault, hparents, hname⟩ := hscan
  have hresult := Run.result?_eq_ok_iff (o := o) |>.mpr ⟨hfault, rfl⟩
  obtain ⟨-, entities, hentities, -, hparent, hnameIn⟩ := report_selfContained o input _ hresult
  exact ⟨_, entities, hresult, hentities, hparent.trans hparents, (hnameIn 1).trans hname⟩

end ScopeTags
