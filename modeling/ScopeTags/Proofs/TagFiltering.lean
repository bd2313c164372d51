import ScopeTags.Proofs.PolicyAgreement
import ScopeTags.Proofs.TagsAside

/-!
# Allowed tags

Where only some tag names are allowed, a tag of another name still opens the scope for the construct
that it documents, but triggers no event.  So a scan with allowed names and one without go through
states that differ in statuses and tags, and a token can stop the one and not the other.  Here is
shown that the difference never gets any further: `Registry.thin` leaves out tags and makes scopes
pending that lose all of theirs, and the one scan is always at what the other one is at, thinned.

## Key results

- `Registry.respond_thin`, `Registry.respond_thin_error`: a response to a thinned registry
- `Scan.Thinned.feed_skip`, `Scan.Thinned.feed_raise`: one token under either policy
- `Scan.run_allowed_thins`: whole scans with allowed tag names against those without
-/

namespace ScopeTags

/-! ## Thinning -/

/-- The tags whose names are allowed. -/
def Tags.only (allowed : SortedSet String) (tags : Tags) : Tags where
  groups := tags.groups.filter (allowed.contains ·.1)
  names_nodup := tags.names_nodup.sublist (List.filter_sublist.map Prod.fst)
  values_nodup g hg := tags.values_nodup g (List.mem_filter.mp hg).1
  values_ne g hg := tags.values_ne g (List.mem_filter.mp hg).1

/-- The scope as it is where only some tag names are allowed: the other tags are missing, and it is
    pending if it was tagged with none but those. -/
def Scope.thin (allowed : SortedSet String) (s : Scope) : Scope :=
  { s with
    tags := s.tags.only allowed
    status := if s.status = .tagged ∧ s.tags.only allowed = ∅ then .pending else s.status }

/-- The registry with every scope thinned. -/
def Registry.thin (allowed : SortedSet String) (r : Registry) : Registry :=
  ⟨r.scopes.map (Scope.thin allowed)⟩

/-- The role of a token where only some tag names are allowed, given the one where all are. -/
def Role.thin (allowed : SortedSet String) : Role → Role
  | tag t => if allowed.contains t.name then tag t else drop
  | role => role

section Groups

variable {p : String → Bool} {t : Tag}

/-- A tag whose name is among those kept can be added before or after the other ones are left
    out. -/
private theorem Tag.filter_addTo_of_pos (h : p t.name = true)
    (groups : List (String × List String)) :
    (t.addTo groups).filter (p ·.1) = t.addTo (groups.filter (p ·.1)) := by
  induction groups with
  | nil => simp [addTo, h]
  | cons g groups ih =>
    obtain ⟨name, values⟩ := g
    -- The tag goes to the group of its name, which is one that is kept, or further down.
    by_cases hname : name = t.name
    · subst hname
      simp [addTo, h]
    · by_cases hp : p name = true
      · simp [addTo, hname, hp, ih]
      · simp [addTo, hname, hp, ih]

/-- A tag whose name is not allowed is left out. -/
private theorem Tag.filter_addTo_of_neg (h : ¬p t.name = true)
    (groups : List (String × List String)) :
    (t.addTo groups).filter (p ·.1) = groups.filter (p ·.1) := by
  induction groups with
  | nil => simp [addTo, h]
  | cons g groups ih =>
    obtain ⟨name, values⟩ := g
    by_cases hname : name = t.name
    · subst hname
      simp [addTo, h]
    · by_cases hp : p name = true
      · simp [addTo, hname, hp, ih]
      · simp [addTo, hname, hp, ih]

end Groups

namespace Tags

variable {allowed : SortedSet String} {tags : Tags} {t : Tag}

private theorem only_empty (allowed : SortedSet String) : only allowed ∅ = ∅ := rfl

/-- A tag that is allowed can be added before or after the others are left out. -/
private theorem only_insert_of_mem (h : allowed.contains t.name = true) :
    only allowed (tags.insert t) = (tags.only allowed).insert t :=
  Tags.ext (Tag.filter_addTo_of_pos h tags.groups)

/-- A tag that is not allowed leaves no trace. -/
private theorem only_insert_of_not_mem (h : ¬allowed.contains t.name = true) :
    only allowed (tags.insert t) = tags.only allowed :=
  Tags.ext (Tag.filter_addTo_of_neg h tags.groups)

private theorem insert_ne_empty (tags : Tags) (t : Tag) : tags.insert t ≠ ∅ := by
  intro h
  have ht : t ∈ tags.insert t := mem_insert.mpr (.inl rfl)
  rw [h] at ht
  exact not_mem_empty t ht

end Tags

namespace Scope

variable {allowed : SortedSet String} {s : Scope}

/-- A scope that has no name to come yet is pending or tagged, thinned or not. -/
private theorem thin_unnamed_iff :
    ((s.thin allowed).status = .pending ∨ (s.thin allowed).status = .tagged) ↔
      (s.status = .pending ∨ s.status = .tagged) := by
  by_cases h : s.status = .tagged
  · by_cases hempty : s.tags.only allowed = ∅ <;> simp [thin, h, hempty]
  · simp [thin, h]

/-- In every other status a scope stays. -/
private theorem thin_status_iff {status : Status} (hp : status ≠ .pending) (ht : status ≠ .tagged) :
    (s.thin allowed).status = status ↔ s.status = status := by
  by_cases h : s.status = .tagged
  · by_cases hempty : s.tags.only allowed = ∅ <;>
      simp [thin, h, hempty, Ne.symm hp, Ne.symm ht]
  · simp [thin, h]

private theorem thin_named_iff : (s.thin allowed).status = .named ↔ s.status = .named :=
  thin_status_iff (by decide) (by decide)

private theorem thin_closed_iff : (s.thin allowed).status = .closed ↔ s.status = .closed :=
  thin_status_iff (by decide) (by decide)

private theorem thin_awaitingName_iff :
    (s.thin allowed).status = .awaitingName ↔ s.status = .awaitingName :=
  thin_status_iff (by decide) (by decide)

/-- A thinned scope is frozen just when it is closed, as the scope itself is. -/
private theorem thin_intact (h : s.Intact) : (s.thin allowed).Intact :=
  h.trans thin_closed_iff.symm

/-- A tag that is allowed goes to the thinned scope as it goes to the scope. -/
private theorem thin_withTag_of_mem {tag : Tag} (h : allowed.contains tag.name = true) :
    (s.withTag tag).thin allowed = (s.thin allowed).withTag tag := by
  simp only [thin, withTag, Tags.only_insert_of_mem h, Tags.insert_ne_empty, and_false, if_false]

/-- A tag that is not allowed makes no difference to a scope that it may be added to. -/
private theorem thin_withTag_of_not_mem {tag : Tag} (h : ¬allowed.contains tag.name = true)
    (hs : s.status = .pending ∨ s.status = .tagged) (hp : s.status = .pending → s.tags = ∅) :
    (s.withTag tag).thin allowed = s.thin allowed := by
  simp only [thin, withTag, Tags.only_insert_of_not_mem h]
  rcases hs with hs | hs
  · simp [hs, hp hs, Tags.only_empty]
  · simp [hs]

private theorem thin_awaiting (construct : Option Construct) :
    (s.awaiting construct).thin allowed = (s.thin allowed).awaiting construct := by
  simp [thin, awaiting]

private theorem thin_called (name : String) (location : Location) :
    (s.called name location).thin allowed = (s.thin allowed).called name location := by
  simp [thin, called]

private theorem thin_shut : s.shut.thin allowed = (s.thin allowed).shut := by
  simp [thin, shut]

end Scope

namespace Registry

variable {allowed : SortedSet String} {r : Registry} {c : Nat} {s : Scope}

private theorem get?_thin (allowed : SortedSet String) (r : Registry) (i : Nat) :
    (r.thin allowed).get? i = (r.get? i).map (Scope.thin allowed) :=
  List.getElem?_map

private theorem size_thin (allowed : SortedSet String) (r : Registry) :
    (r.thin allowed).size = r.size :=
  List.length_map _

private theorem thin_set (allowed : SortedSet String) (r : Registry) (i : Nat) (s : Scope) :
    (r.set i s).thin allowed = (r.thin allowed).set i (s.thin allowed) := by
  simp [thin, set]

/-- A new scope can be thinned before or after it is added. -/
private theorem thin_push (allowed : SortedSet String) (r : Registry) (s : Scope) :
    (r.push s).thin allowed = (r.thin allowed).push (s.thin allowed) := by
  simp [thin, push]

/-- Thinning changes nothing but tags and which scopes are pending. -/
private theorem matches_thin (allowed : SortedSet String) (r : Registry) :
    r.Matches (r.thin allowed) := by
  refine List.forall₂_map_right_iff.mpr (List.forall₂_same.mpr fun s _ => ?_)
  refine ⟨rfl, rfl, rfl, rfl, rfl, ?_⟩
  simp only [Scope.isNamed, Scope.thin_named_iff, Scope.thin_closed_iff]

/-- Inside a scope of a thinned registry, the scope that is opened is the thinned one. -/
private theorem inner_thin (allowed : SortedSet String) (r : Registry) (c : Nat) :
    (r.thin allowed).inner c = (r.inner c).thin allowed :=
  (r.matches_thin allowed).inner_eq c

/-- Outside of all others, the scope that a thinned registry opens is the thinned one. -/
private theorem addRoot_thin (allowed : SortedSet String) (r : Registry) :
    Scan.addRoot (r.thin allowed) = (Scan.addRoot r).thin allowed := by
  simp only [Scan.addRoot, enroll, Option.some_or, (r.matches_thin allowed).nextId_eq]
  simp [thin, Scope.thin, Tags.only_empty]

/-! ## One response -/

/-- Every scope that is pending has no tags. -/
def PendingUntagged (r : Registry) : Prop :=
  ∀ i s, r.get? i = some s → s.status = .pending → s.tags = ∅

/-- A scope that has no name to come yet takes any tag. -/
theorem respond_tag_of_unnamed (h : s.status = .pending ∨ s.status = .tagged) (tag : Tag) :
    r.respond c s (.tag tag) = .ok (r.set c (s.withTag tag), some c) := by
  rcases h with h | h <;> simp only [respond, h]

/-- A tag that is left out changes nothing, unless it opens a scope inside one that has its name. -/
theorem respond_drop_of_ne (h : s.status ≠ .named) : r.respond c s .drop = .ok (r, some c) := by
  cases hst : s.status <;> simp_all [respond]

private theorem respond_opens_of_ne (h : s.status ≠ .named) (h' : s.status ≠ .closed)
    (construct : Option Construct) :
    r.respond c s (.opens construct) = .ok (r.set c (s.awaiting construct), some c) := by
  cases hst : s.status <;> simp_all [respond]

/-- A scope without a name cannot be closed. -/
private theorem respond_closes_of_unnamed (h : s.status = .pending ∨ s.status = .tagged) :
    r.respond c s .closes = .error (s.refuse "close") := by
  rcases h with h | h <;> simp only [respond, h]

/-- A name changes nothing where none is awaited. -/
private theorem respond_names_of_ne (h : s.status ≠ .awaitingName) (text : String)
    (location : Location) : r.respond c s (.names text location) = .ok (r, some c) := by
  cases hst : s.status <;> simp_all [respond]

/-- The response to a tag, thinned. -/
private theorem respond_thin_tag {tag : Tag} {x : Registry × Option Nat} (hs : r.get? c = some s)
    (hp : s.status = .pending → s.tags = ∅) (h : r.respond c s (.tag tag) = .ok x) :
    (r.thin allowed).respond c (s.thin allowed) (Role.thin allowed (.tag tag)) =
      .ok (x.1.thin allowed, x.2) := by
  by_cases hst : s.status = .pending ∨ s.status = .tagged
  · have hthin : (s.thin allowed).status = .pending ∨ (s.thin allowed).status = .tagged :=
      Scope.thin_unnamed_iff.mpr hst
    rw [respond_tag_of_unnamed hst] at h
    obtain rfl := Except.ok.inj h
    by_cases hmem : allowed.contains tag.name = true
    · rw [Role.thin, if_pos hmem, respond_tag_of_unnamed hthin, thin_set,
        Scope.thin_withTag_of_mem hmem]
    · -- The tag is left out, and so it is when the scope that has it is thinned.
      have hset : (r.thin allowed).set c (s.thin allowed) = r.thin allowed :=
        set_get? (by rw [get?_thin, hs, Option.map_some])
      have hne : (s.thin allowed).status ≠ .named := by
        intro hn
        simp [hn] at hthin
      rw [Role.thin, if_neg hmem, respond_drop_of_ne hne, thin_set,
        Scope.thin_withTag_of_not_mem hmem hst hp, hset]
  · -- Only a scope that has its name takes a tag otherwise, for a new scope inside it.
    have hnamed : s.status = .named := by
      cases hstatus : s.status <;> simp_all [respond]
    have hthin : (s.thin allowed).status = .named := Scope.thin_named_iff.mpr hnamed
    simp only [respond, hnamed] at h
    obtain rfl := Except.ok.inj h
    by_cases hmem : allowed.contains tag.name = true
    · simp only [Role.thin, if_pos hmem, respond, hthin, inner_thin, size_thin, thin_push,
        Scope.thin_withTag_of_mem hmem]
    · -- The new scope is opened all the same, without the tag.
      have hinner : ((r.inner c).withTag tag).thin allowed = (r.inner c).thin allowed :=
        Scope.thin_withTag_of_not_mem hmem (.inl rfl) (fun _ => rfl)
      rw [Role.thin, if_neg hmem]
      simp only [respond, hthin, inner_thin, size_thin, thin_push, hinner]

/-- A response to a thinned registry is the thinned response. -/
theorem respond_thin {role : Role} {x : Registry × Option Nat} (hs : r.get? c = some s)
    (hp : s.status = .pending → s.tags = ∅) (h : r.respond c s role = .ok x) :
    (r.thin allowed).respond c (s.thin allowed) (role.thin allowed) =
      .ok (x.1.thin allowed, x.2) := by
  -- A scope that has its name opens another one inside it, and any other scope changes itself.  So
  -- each role is split by whether the scope has its name, which it has thinned or not.
  cases role with
  | idle =>
    obtain rfl := Except.ok.inj h
    rfl
  | tag tag => exact respond_thin_tag hs hp h
  | drop =>
    by_cases hst : s.status = .named
    · have hthin : (s.thin allowed).status = .named := Scope.thin_named_iff.mpr hst
      simp only [respond, hst] at h
      obtain rfl := Except.ok.inj h
      simp only [Role.thin, respond, hthin, inner_thin, size_thin, thin_push]
    · rw [respond_drop_of_ne hst] at h
      obtain rfl := Except.ok.inj h
      exact respond_drop_of_ne (mt Scope.thin_named_iff.mp hst)
  | opens construct =>
    by_cases hst : s.status = .named
    · have hthin : (s.thin allowed).status = .named := Scope.thin_named_iff.mpr hst
      simp only [respond, hst] at h
      obtain rfl := Except.ok.inj h
      simp only [Role.thin, respond, hthin, inner_thin, size_thin, thin_push, Scope.thin_awaiting]
    · have hc : s.status ≠ .closed := by
        intro hc
        simp [respond, hc] at h
      rw [respond_opens_of_ne hst hc] at h
      obtain rfl := Except.ok.inj h
      rw [Role.thin, respond_opens_of_ne (mt Scope.thin_named_iff.mp hst)
        (mt Scope.thin_closed_iff.mp hc), thin_set, Scope.thin_awaiting]
      simp
  | closes =>
    -- Only these two statuses let an `end` through.
    cases hst : s.status <;> simp only [respond, hst, reduceCtorEq] at h
    case named =>
      obtain rfl := Except.ok.inj h
      simp only [Role.thin, respond, Scope.thin_named_iff.mpr hst, thin_set, Scope.thin_shut]
      rfl
    case closed =>
      obtain rfl := Except.ok.inj h
      simp only [Role.thin, respond, Scope.thin_closed_iff.mpr hst]
      rfl
  | names text location =>
    by_cases hst : s.status = .awaitingName
    · have hthin : (s.thin allowed).status = .awaitingName := Scope.thin_awaitingName_iff.mpr hst
      simp only [respond, hst] at h
      obtain rfl := Except.ok.inj h
      simp only [Role.thin, respond, hthin, thin_set, Scope.thin_called]
    · rw [respond_names_of_ne hst] at h
      obtain rfl := Except.ok.inj h
      exact respond_names_of_ne (mt Scope.thin_awaitingName_iff.mp hst) _ _

/-- What does not fit does not fit a thinned registry either, unless it is a tag that is left
    out. -/
theorem respond_thin_error {role : Role} {fault : Fault} (allowed : SortedSet String)
    (h : r.respond c s role = .error fault) :
    (∃ fault', (r.thin allowed).respond c (s.thin allowed) (role.thin allowed) = .error fault') ∨
      role ≠ .closes ∧
        (r.thin allowed).respond c (s.thin allowed) (role.thin allowed) =
          .ok (r.thin allowed, some c) := by
  cases role with
  | idle => cases h
  | tag tag =>
    -- No tag fits while a name is awaited, nor after the end.
    have hst : s.status = .awaitingName ∨ s.status = .closed := by
      cases hst : s.status <;> simp [respond, hst] at h ⊢
    by_cases hmem : allowed.contains tag.name = true
    · rw [Role.thin, if_pos hmem]
      rcases hst with hst | hst
      · exact .inl ⟨(s.thin allowed).refuse "tag", by
          simp only [respond, Scope.thin_awaitingName_iff.mpr hst]⟩
      · exact .inl ⟨(s.thin allowed).refuse "tag", by
          simp only [respond, Scope.thin_closed_iff.mpr hst]⟩
    · -- The tag is left out before the scope could refuse it.
      have hne : (s.thin allowed).status ≠ .named := by
        rw [ne_eq, Scope.thin_named_iff]
        rcases hst with hst | hst <;> simp [hst]
      rw [Role.thin, if_neg hmem]
      exact .inr ⟨by simp, respond_drop_of_ne hne⟩
  | drop => cases hst : s.status <;> simp [respond, hst] at h
  | opens construct =>
    have hst : s.status = .closed := by
      cases hst : s.status <;> simp [respond, hst] at h ⊢
    exact .inl ⟨(s.thin allowed).refuse "await_name", by
      simp only [Role.thin, respond, Scope.thin_closed_iff.mpr hst]⟩
  | closes =>
    by_cases hst : s.status = .awaitingName
    · exact .inl ⟨(s.thin allowed).refuse "close", by
        simp only [Role.thin, respond, Scope.thin_awaitingName_iff.mpr hst]⟩
    · have hst : s.status = .pending ∨ s.status = .tagged := by
        cases hstatus : s.status <;> simp_all [respond]
      exact .inl ⟨_, respond_closes_of_unnamed (Scope.thin_unnamed_iff.mpr hst)⟩
  | names text location => cases hst : s.status <;> simp [respond, hst] at h

/-! ## Pending scopes have no tags -/

namespace PendingUntagged

/-- A write keeps it, if the new scope is not pending with tags. -/
theorem set (h : r.PendingUntagged) (hc : c < r.size) (hs : s.status = .pending → s.tags = ∅) :
    (r.set c s).PendingUntagged := by
  intro i e he
  by_cases hi : c = i
  · subst hi
    rw [get?_set_self hc] at he
    obtain rfl := Option.some.inj he
    exact hs
  · rw [get?_set_ne hi] at he
    exact h i e he

/-- A new scope that has no tags while pending leaves pending scopes untagged. -/
theorem push (h : r.PendingUntagged) (hs : s.status = .pending → s.tags = ∅) :
    (r.push s).PendingUntagged := by
  intro i e he
  rcases get?_push_cases he with ⟨_, he⟩ | ⟨rfl, rfl⟩
  · exact h i e he
  · exact hs

/-- No token makes a tagged scope pending again. -/
theorem respond {role : Role} {x : Registry × Option Nat} (h : r.PendingUntagged)
    (hs : r.get? c = some s) (hopen : s.status ≠ .closed) (hx : r.respond c s role = .ok x) :
    x.1.PendingUntagged := by
  -- A scope that a token moves forward is not pending any more.
  have hadvances : ∀ {s s' : Scope}, s.Advances role s' → s'.status ≠ .pending := by
    intro s s' hadv
    cases hadv <;> simp [Scope.withTag, Scope.awaiting, Scope.called]
  rcases respond_cases hopen hx with
    rfl | ⟨s', hadv, rfl⟩ | ⟨s', _, hadv | rfl, rfl⟩ | ⟨_, rfl⟩
  · exact h
  · exact h.set (lt_size_of_get? hs) (fun hp => absurd hp (hadvances hadv))
  · exact h.push (fun hp => absurd hp (hadvances hadv))
  · exact h.push (fun _ => rfl)
  · exact h.set (lt_size_of_get? hs) (by simp [Scope.shut])

/-- Nor does the scope that is opened where none is left to receive the next token. -/
theorem moved {x : Registry × Option Nat} (h : x.1.PendingUntagged) (scan : Scan) :
    (scan.moved x).registry.PendingUntagged := by
  obtain ⟨registry, receiver⟩ := x
  cases receiver with
  | some i => exact h
  | none => exact h.push (fun _ => rfl)

end PendingUntagged

end Registry

namespace Scan

/-! ## One token -/

/-- `s'` is `s` with every scope thinned, where at most as many tokens were skipped. -/
structure Thinned (allowed : SortedSet String) (policy : Policy) (s s' : Scan) : Prop where
  coherent : s.Coherent policy
  pendingUntagged : s.registry.PendingUntagged
  registry_eq : s'.registry = s.registry.thin allowed
  current_eq : s'.current = s.current
  consumed_eq : s'.consumed = s.consumed
  skipped_le : s'.skipped ≤ s.skipped

/-- At the start there is nothing to leave out. -/
private theorem start_thinned (allowed : SortedSet String) (policy : Policy) :
    Thinned allowed policy start start where
  coherent := start_coherent policy
  pendingUntagged := by
    have htags : ∀ e ∈ start.registry.scopes, e.tags = ∅ := by decide
    exact fun i e he _ => htags e (List.mem_of_getElem? he)
  registry_eq := by
    have hthin : start.registry.thin allowed = addRoot (Registry.thin allowed {}) :=
      (Registry.addRoot_thin allowed {}).symm
    exact hthin.symm
  current_eq := rfl
  consumed_eq := rfl
  skipped_le := Nat.le_refl _

/-- A token has the thinned role where not all tag names are allowed. -/
private theorem role_under {allowed : SortedSet String} (ha : allowed ≠ ∅) (file : Option String)
    (policy : Policy) (t : Token) :
    t.role (Options.under allowed file policy).settings.accepts =
      (t.role (Options.under ∅ file policy).settings.accepts).thin allowed := by
  -- An empty set of names would allow all of them.
  have hempty : allowed.isEmpty = false := by
    cases h : allowed.isEmpty with
    | false => rfl
    | true =>
      refine absurd (SortedSet.ext_mem fun a => ?_) ha
      have hnil : allowed.toList = [] := List.isEmpty_iff.mp h
      simp [SortedSet.mem_def, hnil, show (∅ : SortedSet String).toList = [] from rfl]
  have haccepts : ∀ name, (Options.under allowed file policy).settings.accepts name =
      allowed.contains name := by
    intro name
    simp [Options.under, Settings.accepts, hempty]
  have hall : ∀ name, (Options.under ∅ file policy).settings.accepts name = true :=
    fun name => rfl
  simp only [Token.role, haccepts, hall, if_true]
  grind [Role.thin]

section Feed

variable {allowed : SortedSet String} {file : Option String} {policy : Policy} {s s' : Scan}
  {e : Scope} {t : Token}

/-- The current scopes correspond. -/
theorem Thinned.currentScope? (h : Thinned allowed policy s s') (he : s.currentScope? = some e) :
    s'.currentScope? = some (e.thin allowed) := by
  have he : s.registry.get? s.current = some e := he
  rw [Scan.currentScope?, h.registry_eq, h.current_eq, Registry.get?_thin, he, Option.map_some]

/-- Where the registry of the one has responded as that of the other, thinned, the states are alike
    again. -/
private theorem thinned_moved {x : Registry × Option Nat} (hcoherent : (s.moved x).Coherent policy)
    (hpending : x.1.PendingUntagged) (hconsumed : s'.consumed = s.consumed)
    (hskipped : s'.skipped ≤ s.skipped) :
    Thinned allowed policy (s.moved x) (s'.moved (x.1.thin allowed, x.2)) := by
  obtain ⟨registry, receiver⟩ := x
  cases receiver with
  | some i => exact ⟨hcoherent, hpending, rfl, rfl, hconsumed, hskipped⟩
  | none =>
    exact ⟨hcoherent, hpending.moved (x := (registry, none)) s, Registry.addRoot_thin _ _,
      Registry.size_thin _ _, hconsumed, hskipped⟩

/-- A token that fits is taken by both, with the same effect. -/
theorem Thinned.feed_of_ok (h : Thinned allowed policy s s') (ha : allowed ≠ ∅)
    (he : s.currentScope? = some e) {x : Registry × Option Nat}
    (hx : s.registry.respond s.current e (t.role (Options.under ∅ file policy).settings.accepts) =
      .ok x) :
    ∃ next next' notices notices', s.feed (.under ∅ file policy) t = .ok (next, notices) ∧
      s'.feed (.under allowed file policy) t = .ok (next', notices') ∧
      Thinned allowed policy next next' := by
  have hi := (h.coherent.arranged _ e he).intact
  have hopen : e.status ≠ .closed := by
    obtain ⟨e', he', hst⟩ := h.coherent.current_open
    obtain rfl := Option.some.inj (he.symm.trans he')
    exact hst
  have hx' : s'.registry.respond s'.current (e.thin allowed)
      (t.role (Options.under allowed file policy).settings.accepts) =
      .ok (x.1.thin allowed, x.2) := by
    rw [role_under ha, h.registry_eq, h.current_eq]
    exact Registry.respond_thin he (h.pendingUntagged _ e he) hx
  obtain ⟨notices, hfeed⟩ := dispatch_of_ok (s := { s with consumed := s.consumed + 1 }) he hi hx
  obtain ⟨notices', hfeed'⟩ := dispatch_of_ok (s := { s' with consumed := s'.consumed + 1 })
    (h.currentScope? he) (Scope.thin_intact hi) hx'
  -- Both moves are the same but for the registry, where the responses are alike.
  refine ⟨_, _, notices, notices', hfeed, hfeed', thinned_moved ?_ ?_ ?_ h.skipped_le⟩
  · exact Registry.Coherent.respond h.coherent he _ hx
  · exact h.pendingUntagged.respond he hopen hx
  · exact congrArg (· + 1) h.consumed_eq

/-- An `end` that goes to the parent in the one goes there in the other. -/
theorem Thinned.feed_of_heir (h : Thinned allowed .skip s s') (ha : allowed ≠ ∅)
    (he : s.currentScope? = some e) {p : Nat}
    (hrole : t.role (Options.under ∅ file .skip).settings.accepts = .closes)
    (hst : e.status = .pending ∨ e.status = .tagged) (hparent : e.parent = some p) :
    ∃ next next' notices notices', s.feed (.under ∅ file .skip) t = .ok (next, notices) ∧
      s'.feed (.under allowed file .skip) t = .ok (next', notices') ∧
      Thinned allowed .skip next next' := by
  have hi := (h.coherent.arranged _ e he).intact
  obtain ⟨hlt, e', he', hn⟩ := h.coherent.parent_named he hparent
  have hi' := (h.coherent.arranged p e' he').intact
  have hrole' : t.role (Options.under allowed file .skip).settings.accepts = .closes := by
    rw [role_under ha, hrole]
    rfl
  have hthin' : s'.registry.get? p = some (e'.thin allowed) := by
    rw [h.registry_eq, Registry.get?_thin, he', Option.map_some]
  obtain ⟨notices, hfeed⟩ :=
    Scan.feed_of_heir (o := .under ∅ file .skip) he hi rfl hrole hst hparent hlt he' hi' hn
  obtain ⟨notices', hfeed'⟩ :=
    Scan.feed_of_heir (o := .under allowed file .skip) (h.currentScope? he) (Scope.thin_intact hi)
      rfl hrole' (Scope.thin_unnamed_iff.mpr hst) hparent (h.current_eq ▸ hlt) hthin'
      (Scope.thin_intact hi') (Scope.thin_named_iff.mpr hn)
  -- The parent that is shut is the same one, thinned.
  have hshut : s'.registry.set p (e'.thin allowed).shut =
      (s.registry.set p e'.shut).thin allowed := by
    rw [h.registry_eq, Registry.thin_set, Scope.thin_shut]
  rw [hshut] at hfeed'
  refine ⟨_, _, notices, notices', hfeed, hfeed',
    thinned_moved (x := (s.registry.set p e'.shut, e'.parent)) ?_ ?_ ?_ h.skipped_le⟩
  · exact feed_coherent (o := .under ∅ file .skip) h.coherent hfeed
  · exact h.pendingUntagged.set (Registry.lt_size_of_get? he') (by simp [Scope.shut])
  · exact congrArg (· + 1) h.consumed_eq

/-- A token that is counted in the one is counted in the other, or is a tag that is left out
    there. -/
theorem Thinned.feed_of_misfit (h : Thinned allowed .skip s s') (ha : allowed ≠ ∅)
    (he : s.currentScope? = some e) {fault : Fault}
    (hx : s.registry.respond s.current e (t.role (Options.under ∅ file .skip).settings.accepts) =
      .error fault)
    (hno : ¬(t.role (Options.under ∅ file .skip).settings.accepts = .closes ∧
      (e.status = .pending ∨ e.status = .tagged) ∧ e.parent.isSome = true)) :
    ∃ next next' notices notices', s.feed (.under ∅ file .skip) t = .ok (next, notices) ∧
      s'.feed (.under allowed file .skip) t = .ok (next', notices') ∧
      Thinned allowed .skip next next' := by
  have hi := (h.coherent.arranged _ e he).intact
  obtain ⟨notices, hfeed⟩ :=
    Scan.feed_of_misfit (o := .under ∅ file .skip) he hi rfl hx hno
  have hrole := role_under ha file .skip t
  rcases Registry.respond_thin_error allowed hx with ⟨fault', hx'⟩ | ⟨_, hx'⟩
  · -- The token does not fit here either, and it is not one for the parent.
    have hno' : ¬(t.role (Options.under allowed file .skip).settings.accepts = .closes ∧
        ((e.thin allowed).status = .pending ∨ (e.thin allowed).status = .tagged) ∧
        (e.thin allowed).parent.isSome = true) := by
      rw [Scope.thin_unnamed_iff, Token.role_eq_closes_iff]
      rw [Token.role_eq_closes_iff] at hno
      exact hno
    rw [← hrole, ← h.registry_eq, ← h.current_eq] at hx'
    obtain ⟨notices', hfeed'⟩ := Scan.feed_of_misfit (o := .under allowed file .skip)
      (h.currentScope? he) (Scope.thin_intact hi) rfl hx' hno'
    exact ⟨_, _, notices, notices', hfeed, hfeed', h.coherent, h.pendingUntagged, h.registry_eq,
      h.current_eq, congrArg (· + 1) h.consumed_eq, Nat.succ_le_succ h.skipped_le⟩
  · -- The tag is left out where the scan without allowed names has counted it.
    rw [← hrole, ← h.registry_eq, ← h.current_eq] at hx'
    obtain ⟨notices', hfeed'⟩ := dispatch_of_ok (o := .under allowed file .skip)
      (s := { s' with consumed := s'.consumed + 1 }) (h.currentScope? he) (Scope.thin_intact hi) hx'
    exact ⟨_, _, notices, notices', hfeed, hfeed', h.coherent, h.pendingUntagged, h.registry_eq,
      h.current_eq, congrArg (· + 1) h.consumed_eq, Nat.le_succ_of_le h.skipped_le⟩

/-- One token, where tokens that do not fit are passed over. -/
theorem Thinned.feed_skip (h : Thinned allowed .skip s s') (ha : allowed ≠ ∅)
    (file : Option String) (t : Token) :
    ∃ next next' notices notices', s.feed (.under ∅ file .skip) t = .ok (next, notices) ∧
      s'.feed (.under allowed file .skip) t = .ok (next', notices') ∧
      Thinned allowed .skip next next' := by
  obtain ⟨e, he, -⟩ := h.coherent.current_open
  cases hx : s.registry.respond s.current e
      (t.role (Options.under ∅ file .skip).settings.accepts) with
  | ok x => exact h.feed_of_ok ha he hx
  | error fault =>
    -- What does not fit goes to the parent or is counted.
    by_cases hheir : t.role (Options.under ∅ file .skip).settings.accepts = .closes ∧
        (e.status = .pending ∨ e.status = .tagged) ∧ e.parent.isSome = true
    · obtain ⟨hrole, hst, hparent⟩ := hheir
      obtain ⟨p, hparent⟩ := Option.isSome_iff_exists.mp hparent
      exact h.feed_of_heir ha he hrole hst hparent
    · exact h.feed_of_misfit ha he hx hheir

/-- One token, where a token that does not fit stops the scan. -/
theorem Thinned.feed_raise (h : Thinned allowed .raise s s') (ha : allowed ≠ ∅) {next : Scan}
    {notices : List Notice} (hfeed : s.feed (.under ∅ file .raise) t = .ok (next, notices)) :
    ∃ next' notices', s'.feed (.under allowed file .raise) t = .ok (next', notices') ∧
      Thinned allowed .raise next next' := by
  obtain ⟨e, he, -⟩ := h.coherent.current_open
  have hi := (h.coherent.arranged _ e he).intact
  cases hx : s.registry.respond s.current e
      (t.role (Options.under ∅ file .raise).settings.accepts) with
  | ok x =>
    obtain ⟨next₁, next', notices₁, notices', hfeed₁, hfeed', hthinned⟩ := h.feed_of_ok ha he hx
    rw [hfeed] at hfeed₁
    obtain ⟨rfl, rfl⟩ := Prod.mk.inj (Except.ok.inj hfeed₁)
    exact ⟨next', notices', hfeed', hthinned⟩
  | error fault =>
    -- A token that does not fit would have stopped the scan.
    have hraise : s.feed (.under ∅ file .raise) t = .error (fault.locate (siteOf file t)) :=
      dispatch_of_raise (s := { s with consumed := s.consumed + 1 }) he hi hx rfl
    rw [hfeed] at hraise
    cases hraise

end Feed

/-! ## All tokens -/

section Run

variable {allowed : SortedSet String} {s s' : Scan}

/-- The states in which two scans stop are alike if those in which they start are. -/
private theorem Thinned.runFrom_skip (h : Thinned allowed .skip s s') (ha : allowed ≠ ∅)
    (file : Option String) (ts : List Token) :
    Thinned allowed .skip (s.runFrom (.under ∅ file .skip) (ts.map .token)).final
      (s'.runFrom (.under allowed file .skip) (ts.map .token)).final := by
  -- By induction on the tokens; that the states are alike is kept by each of them.
  induction ts generalizing s s' with
  | nil => exact h
  | cons t ts ih =>
    obtain ⟨next, next', _, _, hfeed, hfeed', hnext⟩ := h.feed_skip ha file t
    rw [List.map_cons, runFrom_token_of_ok rfl hfeed, runFrom_token_of_ok rfl hfeed']
    exact ih hnext

/-- A scan that no token stops is not stopped either where fewer tag names are allowed. -/
private theorem Thinned.runFrom_raise (h : Thinned allowed .raise s s') (ha : allowed ≠ ∅)
    {file : Option String} {ts : List Token}
    (hfault : (s.runFrom (.under ∅ file .raise) (ts.map .token)).fault = none) :
    (s'.runFrom (.under allowed file .raise) (ts.map .token)).fault = none ∧
      Thinned allowed .raise (s.runFrom (.under ∅ file .raise) (ts.map .token)).final
        (s'.runFrom (.under allowed file .raise) (ts.map .token)).final := by
  induction ts generalizing s s' with
  | nil => exact ⟨rfl, h⟩
  | cons t ts ih =>
    rw [List.map_cons] at hfault ⊢
    cases hfeed : s.feed (.under ∅ file .raise) t with
    | error fault =>
      rw [runFrom_token_of_error rfl hfeed] at hfault
      cases hfault
    | ok after =>
      obtain ⟨next', notices', hfeed', hnext⟩ := h.feed_raise ha hfeed
      rw [runFrom_token_of_ok rfl hfeed] at hfault ⊢
      rw [runFrom_token_of_ok rfl hfeed']
      exact ih hnext hfault

end Run

end Scan

/-- The result `r'` of a scan with allowed tag names against the result `r` of the same scan
    without: the scopes are the same up to tags that are left out and scopes that are pending
    because of that, and fewer tokens may have been skipped. -/
structure Result.Thins (allowed : SortedSet String) (r r' : Result) : Prop where
  registry_eq : r'.registry = r.registry.thin allowed
  qualifiedName_eq : ∀ i, r'.registry.qualifiedName i = r.registry.qualifiedName i
  tokens_eq : r'.tokens = r.tokens
  skipped_le : r'.skipped ≤ r.skipped

/-- States that are alike at the end give results that are alike. -/
theorem Scan.Thinned.result {allowed : SortedSet String} {policy : Policy} {file : Option String}
    {run run' : Run} (h : Thinned allowed policy run.final run'.final) (hfault : run'.fault = none)
    {r : Result} (hr : run.result? (.under ∅ file policy) = .ok r) :
    ∃ r', run'.result? (.under allowed file policy) = .ok r' ∧ r.Thins allowed r' := by
  obtain ⟨-, rfl⟩ := Run.result?_eq_ok_iff.mp hr
  refine ⟨_, Run.result?_eq_ok_iff.mpr ⟨hfault, rfl⟩, h.registry_eq, fun i => ?_, h.consumed_eq,
    h.skipped_le⟩
  exact (congrArg (Registry.qualifiedName · i) h.registry_eq).trans
    ((Registry.matches_thin allowed _).qualifiedName_eq i)

/-- Allowed tag names, at least one, filter tags and nothing else.  Where tokens that do not fit are
    passed over, the scans with and without them both have a result, and the one thins the other.
    Where such a token stops the scan, the scan with allowed names has a result whenever the other
    one has, and again thins it. -/
theorem Scan.run_allowed_thins (allowed : SortedSet String) (ha : allowed ≠ ∅)
    (file : Option String) (ts : List Token) :
    let result? (names : SortedSet String) (policy : Policy) : Except Fault Result :=
      (run (.under names file policy) (ts.map .token)).result? (.under names file policy)
    (∃ r r', result? ∅ .skip = .ok r ∧ result? allowed .skip = .ok r' ∧ r.Thins allowed r') ∧
      ∀ r, result? ∅ .raise = .ok r →
        ∃ r', result? allowed .raise = .ok r' ∧ r.Thins allowed r' := by
  intro result?
  constructor
  · have hr := (Run.result?_eq_ok_iff (o := .under ∅ file .skip)).mpr
      ⟨(runFrom_skip_completes ∅ file start ts).1, rfl⟩
    have hfinal := (start_thinned allowed .skip).runFrom_skip ha file ts
    obtain ⟨r', hr', hthins⟩ := hfinal.result (runFrom_skip_completes allowed file start ts).1 hr
    exact ⟨_, r', hr, hr', hthins⟩
  · intro r hr
    obtain ⟨hfault', hfinal⟩ :=
      (start_thinned allowed .raise).runFrom_raise ha (Run.result?_eq_ok_iff.mp hr).1
    exact hfinal.result hfault' hr

/-- A tag that is not allowed stands between a keyword and its name, where no tag fits, and another
    one before an `end`. -/
theorem Scan.run_allowed_thins_misfit :
    let allowed := SortedSet.ofList ["domain"]
    let ts : List Token :=
      [Token.keyword "module" none none ⟨1, 1, none⟩, Token.comment "# @owner: A" ⟨1, 8, none⟩,
        Token.constant "Foo" ⟨2, 1, none⟩, Token.comment "# @owner: B" ⟨3, 1, none⟩,
        Token.keyword "end" none none ⟨4, 1, none⟩]
    allowed ≠ ∅ ∧
      ∃ r r', (run (.under ∅ none .skip) (ts.map .token)).result? (.under ∅ none .skip) = .ok r ∧
        (run (.under allowed none .skip) (ts.map .token)).result? (.under allowed none .skip) =
          .ok r' ∧
        r.Thins allowed r' :=
  have h : SortedSet.ofList ["domain"] ≠ ∅ := by decide
  ⟨h, (run_allowed_thins (SortedSet.ofList ["domain"]) h none _).1⟩

end ScopeTags
