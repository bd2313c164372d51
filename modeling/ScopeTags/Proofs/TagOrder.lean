import ScopeTags.Proofs.ScanInvariant
import ScopeTags.Proofs.SortedReport
import ScopeTags.Proofs.TagsAside

/-!
# Scans up to the order of tags

A scope keeps its tags in the order in which they came.  Nothing that a scan does depends on that
order: two scans whose scopes hold the same tags, in whatever order, take every token alike, and the
reports on them are the same, since a report sorts what it lists.

## Key results

- `Registry.respond_akin`: what a token does, one case for each role
- `Scan.feed_akin`, `Scan.feedAll_akin`: one token and all tokens
- `Result.toJson_eq_of_akin`: the reports are the same
-/

namespace ScopeTags

/-- Both succeed, with related values, or both refuse the same event in the same status. -/
inductive Alike {α : Type} (R : α → α → Prop) : Except Fault α → Except Fault α → Prop where
  | ok {a b : α} (related : R a b) : Alike R (.ok a) (.ok b)
  | refused (event : String) (status : Scalar) (site site' : Site) :
      Alike R (.error (.illegalTransition event status site))
        (.error (.illegalTransition event status site'))

namespace Alike

variable {α β : Type} {R : α → α → Prop} {x x' : Except Fault α}

/-- The two ways of being alike, with the outcomes on both sides. -/
theorem ok_or_refused (h : Alike R x x') :
    (∃ a b, x = .ok a ∧ x' = .ok b ∧ R a b) ∨ ∃ event status site site',
      x = .error (.illegalTransition event status site) ∧
        x' = .error (.illegalTransition event status site') := by
  cases h with
  | ok hr => exact .inl ⟨_, _, rfl, rfl, hr⟩
  | refused event status site site' => exact .inr ⟨event, status, site, site', rfl, rfl⟩

/-- What comes next goes alike if it does so after related values. -/
theorem bind {S : β → β → Prop} (h : Alike R x x') {f : α → Except Fault β}
    (hf : ∀ a b, x = .ok a → R a b → Alike S (f a) (f b)) : Alike S (x >>= f) (x' >>= f) := by
  cases h with
  | ok hr => exact hf _ _ rfl hr
  | refused event status site site' => exact .refused event status site site'

end Alike

/-! ## Scopes -/

namespace Scope

/-- The same scope, with the same tags in an order that may differ. -/
inductive Akin (s : Scope) : Scope → Prop where
  | mk {tags : Tags} (same : s.tags.Same tags) : Akin s { s with tags }

namespace Akin

variable {s s' s'' : Scope}

theorem refl (s : Scope) : s.Akin s := ⟨fun _ => Iff.rfl⟩

theorem trans (h : s.Akin s') (h' : s'.Akin s'') : s.Akin s'' := by
  obtain ⟨hsame⟩ := h
  obtain ⟨hsame'⟩ := h'
  exact ⟨fun t => (hsame t).trans (hsame' t)⟩

/-- Scopes that are akin match in all but their tags. -/
private theorem toMatches (h : s.Akin s') : s.Matches s' := by
  obtain ⟨-⟩ := h
  exact ⟨rfl, rfl, rfl, rfl, rfl, rfl⟩

theorem intact (h : s.Akin s') (hi : s.Intact) : s'.Intact := by
  obtain ⟨-⟩ := h
  exact hi

/-- One more tag keeps the order of tags the only difference. -/
theorem withTag (h : s.Akin s') (tag : Tag) : (s.withTag tag).Akin (s'.withTag tag) := by
  obtain ⟨hsame⟩ := h
  refine ⟨fun t => ?_⟩
  simp only [Scope.withTag, Tags.mem_insert]
  exact or_congr_right (hsame t)

theorem awaiting (h : s.Akin s') (construct : Option Construct) :
    (s.awaiting construct).Akin (s'.awaiting construct) := by
  obtain ⟨hsame⟩ := h
  exact ⟨hsame⟩

theorem called (h : s.Akin s') (name : String) (location : Location) :
    (s.called name location).Akin (s'.called name location) := by
  obtain ⟨hsame⟩ := h
  exact ⟨hsame⟩

theorem shut (h : s.Akin s') : s.shut.Akin s'.shut := by
  obtain ⟨hsame⟩ := h
  exact ⟨hsame⟩

end Akin

end Scope

/-! ## Registries -/

namespace Registry

/-- The same scopes, up to the order of their tags. -/
def Akin (r r' : Registry) : Prop := List.Forall₂ Scope.Akin r.scopes r'.scopes

variable {r r' : Registry} {i : Nat} {s s' : Scope}

namespace Akin

theorem refl (r : Registry) : r.Akin r := List.forall₂_same.mpr fun s _ => .refl s

private theorem toMatches (h : r.Akin r') : r.Matches r' := h.imp fun _ _ => Scope.Akin.toMatches

theorem get? (h : r.Akin r') (hs : r.get? i = some s) : ∃ s', r'.get? i = some s' ∧ s.Akin s' := by
  rcases getElem?_of_forall₂ h i with ⟨hnone, -⟩ | ⟨e, e', he, he', hakin⟩
  · exact absurd (hs.symm.trans hnone) (by simp)
  · obtain rfl := Option.some.inj (hs.symm.trans he)
    exact ⟨e', he', hakin⟩

theorem set (h : r.Akin r') (i : Nat) (hs : s.Akin s') : (r.set i s).Akin (r'.set i s') := by
  refine List.forall₂_iff_get.mpr ⟨by simpa [Registry.set] using h.length_eq, fun j hj hj' => ?_⟩
  simp only [Registry.set, List.get_eq_getElem, List.getElem_set]
  split
  · exact hs
  · exact List.forall₂_iff_get.mp h |>.2 j (by simpa [Registry.set] using hj)
      (by simpa [Registry.set] using hj')

theorem push (h : r.Akin r') (hs : s.Akin s') : (r.push s).Akin (r'.push s') :=
  List.rel_append h (.cons hs .nil)

/-- A scope that is made for lack of another one has the same id, which tags do not enter into. -/
theorem addRoot (h : r.Akin r') : (Scan.addRoot r).Akin (Scan.addRoot r') := by
  simp only [Scan.addRoot, enroll, Option.some_or, h.toMatches.nextId_eq]
  exact List.rel_append h (.cons (.refl _) .nil)

end Akin

/-- A token does the same to scopes, whatever the order of their tags. -/
theorem respond_akin (h : r.Akin r') (hs : s.Akin s') (i : Nat) (role : Role) :
    Alike (fun x x' => x.1.Akin x'.1 ∧ x'.2 = x.2) (r.respond i s role) (r'.respond i s' role) := by
  have hsize : r'.size = r.size := h.toMatches.size_eq
  have hinner : (r.inner i).Akin (r'.inner i) := h.toMatches.inner_eq i ▸ .refl _
  have hstatus : s'.status = s.status := by
    obtain ⟨-⟩ := hs
    rfl
  have hparent : s'.parent = s.parent := hs.toMatches.parent_eq
  have hrefuse : ∀ event, Alike (fun x x' : Registry × Option Nat => x.1.Akin x'.1 ∧ x'.2 = x.2)
      (.error (s.refuse event)) (.error (s'.refuse event)) := by
    intro event
    rw [Scope.refuse, Scope.refuse, hstatus]
    exact .refused _ _ _ _
  -- Each role changes or makes one scope at most, and does so by what is the same on both sides.
  cases role with
  | idle => exact .ok ⟨h, rfl⟩
  | tag tag =>
    cases hst : s.status <;> simp only [respond, hst, hst ▸ hstatus, hsize]
    case pending | tagged => exact .ok ⟨h.set i (hs.withTag tag), rfl⟩
    case named => exact .ok ⟨h.push (hinner.withTag tag), rfl⟩
    case awaitingName | closed => exact hrefuse "tag"
  | drop =>
    cases hst : s.status <;> simp only [respond, hst, hst ▸ hstatus, hsize]
    case named => exact .ok ⟨h.push hinner, rfl⟩
    all_goals exact .ok ⟨h, rfl⟩
  | opens construct =>
    cases hst : s.status <;> simp only [respond, hst, hst ▸ hstatus, hsize]
    case named => exact .ok ⟨h.push (hinner.awaiting construct), rfl⟩
    case closed => exact hrefuse "await_name"
    all_goals exact .ok ⟨h.set i (hs.awaiting construct), rfl⟩
  | closes =>
    cases hst : s.status <;> simp only [respond, hst, hst ▸ hstatus, hparent]
    case named => exact .ok ⟨h.set i hs.shut, rfl⟩
    case closed => exact .ok ⟨h, rfl⟩
    all_goals exact hrefuse "close"
  | names text location =>
    cases hst : s.status <;> simp only [respond, hst, hst ▸ hstatus]
    case awaitingName => exact .ok ⟨h.set i (hs.called text location), rfl⟩
    all_goals exact .ok ⟨h, rfl⟩

/-- A report on a scope does not depend on the order of its tags. -/
theorem Akin.describe_eq (h : r.Akin r') (i : Nat) : r'.describe i = r.describe i := by
  rcases getElem?_of_forall₂ h i with ⟨hs, hs'⟩ | ⟨s, s', hs, hs', hakin⟩
  · rw [describe, describe, toRecord, toRecord, show r.get? i = none from hs,
      show r'.get? i = none from hs']
  · obtain ⟨hsame⟩ := hakin
    -- The parent is shown by its id, which is the same.
    have hparent : Json.ofOption (fun p => .number p.id) (s.parent.bind r'.get?) =
        Json.ofOption (fun p => .number p.id) (s.parent.bind r.get?) := by
      cases s.parent with
      | none => rfl
      | some p =>
        rw [Option.bind_some, Option.bind_some]
        rcases h.toMatches.get? p with ⟨hp, hp'⟩ | ⟨e, e', hp, hp', hmatch⟩
        · rw [hp, hp']
        · rw [hp, hp']
          exact congrArg Json.number hmatch.id_eq
    rw [describe_eq_sort hs, describe_eq_sort hs']
    simp only [h.toMatches.qualifiedName_eq, hparent, Tags.toJson_eq_of_same hsame, Scope.type]

end Registry

/-- A report on a result does not depend on the order of tags. -/
theorem Result.toJson_eq_of_akin {r r' : Result} (hregistry : r.registry.Akin r'.registry)
    (hfile : r'.file = r.file) (htokens : r'.tokens = r.tokens)
    (hskipped : r'.skipped = r.skipped) :
    r'.toJson = r.toJson := by
  have hall : r'.all = r.all := congrArg List.range hregistry.toMatches.size_eq
  have hentities : r'.all.map r'.registry.describe = r.all.map r.registry.describe := by
    rw [hall]
    exact List.map_congr_left fun i _ => hregistry.describe_eq i
  rw [toJson_eq_sort, toJson_eq_sort, hfile, htokens, hskipped, hentities]

/-! ## Scans -/

namespace Scan

/-- The same state, up to the order of tags. -/
structure Akin (s s' : Scan) : Prop where
  registry : s.registry.Akin s'.registry
  current_eq : s'.current = s.current
  consumed_eq : s'.consumed = s.consumed
  skipped_eq : s'.skipped = s.skipped

variable {o : Options} {s s' : Scan} {e : Scope} {t : Token}

namespace Akin

theorem refl (s : Scan) : s.Akin s := ⟨.refl _, rfl, rfl, rfl⟩

/-- The current scopes are the same up to the order of tags. -/
theorem currentScope? (h : s.Akin s') (he : s.currentScope? = some e) :
    ∃ e', s'.currentScope? = some e' ∧ e.Akin e' := by
  rw [Scan.currentScope?, h.current_eq]
  exact h.registry.get? he

/-- The states after a token that was taken are akin. -/
theorem moved {x x' : Registry × Option Nat} (h : s.Akin s') (hx : x.1.Akin x'.1)
    (hreceiver : x'.2 = x.2) : (s.moved x).Akin (s'.moved x') := by
  obtain ⟨registry, receiver⟩ := x
  obtain ⟨registry', receiver'⟩ := x'
  obtain rfl : receiver' = receiver := hreceiver
  cases receiver' with
  | some i => exact ⟨hx, rfl, h.consumed_eq, h.skipped_eq⟩
  | none => exact ⟨hx.addRoot, hx.toMatches.size_eq, h.consumed_eq, h.skipped_eq⟩

/-- The state once a token was counted. -/
theorem consumed (h : s.Akin s') :
    { s with consumed := s.consumed + 1 }.Akin { s' with consumed := s'.consumed + 1 } :=
  ⟨h.registry, h.current_eq, congrArg (· + 1) h.consumed_eq, h.skipped_eq⟩

end Akin

/-- Where tokens are passed over, one that does not fit is passed over in both, or goes to the same
    parent. -/
private theorem feed_akin_of_misfit (h : s.Akin s') (hc : s.Coherent .skip)
    (hp : o.settings.policy = .skip) (he : s.currentScope? = some e) {e' : Scope}
    (he' : s'.currentScope? = some e') (hakin : e.Akin e') {fault fault' : Fault}
    (hx : s.registry.respond s.current e (t.role o.settings.accepts) = .error fault)
    (hx' : s'.registry.respond s'.current e' (t.role o.settings.accepts) = .error fault') :
    Alike (fun x x' => x.1.Akin x'.1) (s.feed o t) (s'.feed o t) := by
  have hi : e.Intact := (hc.arranged _ e he).intact
  have hstatus : e'.status = e.status := by
    obtain ⟨-⟩ := hakin
    rfl
  have hparent : e'.parent = e.parent := hakin.toMatches.parent_eq
  -- An `end` goes to the parent, which is named and takes it; all other tokens are passed over.
  by_cases hheir : t.role o.settings.accepts = .closes ∧
      (e.status = .pending ∨ e.status = .tagged) ∧ e.parent.isSome = true
  · obtain ⟨hrole, hst, hsome⟩ := hheir
    obtain ⟨p, hp'⟩ := Option.isSome_iff_exists.mp hsome
    obtain ⟨hlt, outer, houter, hn⟩ := hc.parent_named he hp'
    obtain ⟨outer', houter', hakin'⟩ := h.registry.get? houter
    have hintact := (hc.arranged p outer houter).intact
    have hn' : outer'.status = .named := by
      obtain ⟨-⟩ := hakin'
      exact hn
    obtain ⟨notices, hfeed⟩ := feed_of_heir he hi hp hrole hst hp' hlt houter hintact hn
    obtain ⟨notices', hfeed'⟩ := feed_of_heir he' (hakin.intact hi) hp hrole (hstatus ▸ hst)
      (hparent.trans hp') (h.current_eq ▸ hlt) houter' (hakin'.intact hintact) hn'
    rw [hfeed, hfeed']
    have hcurrent : { s with consumed := s.consumed + 1, current := p }.Akin
        { s' with consumed := s'.consumed + 1, current := p } :=
      ⟨h.registry, rfl, congrArg (· + 1) h.consumed_eq, h.skipped_eq⟩
    exact .ok (hcurrent.moved (h.registry.set p hakin'.shut) hakin'.toMatches.parent_eq)
  · have hheir' : ¬(t.role o.settings.accepts = .closes ∧
        (e'.status = .pending ∨ e'.status = .tagged) ∧ e'.parent.isSome = true) := by
      rw [hstatus, hparent]
      exact hheir
    obtain ⟨notices, hfeed⟩ := feed_of_misfit he hi hp hx hheir
    obtain ⟨notices', hfeed'⟩ := feed_of_misfit he' (hakin.intact hi) hp hx' hheir'
    rw [hfeed, hfeed']
    exact .ok ⟨h.registry, h.current_eq, congrArg (· + 1) h.consumed_eq,
      congrArg (· + 1) h.skipped_eq⟩

/-- One token does the same, whatever the order of tags. -/
theorem feed_akin (h : s.Akin s') (hc : s.Coherent o.settings.policy) (t : Token) :
    Alike (fun x x' => x.1.Akin x'.1) (s.feed o t) (s'.feed o t) := by
  obtain ⟨e, he, -⟩ := hc.current_open
  obtain ⟨e', he', hakin⟩ := h.currentScope? he
  have hi : e.Intact := (hc.arranged _ e he).intact
  have hrespond := Registry.respond_akin h.registry hakin s.current (t.role o.settings.accepts)
  rw [← h.current_eq] at hrespond
  rcases hrespond.ok_or_refused with
    ⟨x, x', hx, hx', hregistry, hreceiver⟩ | ⟨event, status, site, site', hx, hx'⟩
  -- The token is taken on both sides.
  · rw [h.current_eq] at hx
    obtain ⟨notices, hfeed⟩ := dispatch_of_ok (s := { s with consumed := s.consumed + 1 }) he hi hx
    obtain ⟨notices', hfeed'⟩ :=
      dispatch_of_ok (s := { s' with consumed := s'.consumed + 1 }) he' (hakin.intact hi) hx'
    rw [feed, feed, hfeed, hfeed']
    exact .ok (h.consumed.moved hregistry hreceiver)
  · rw [h.current_eq] at hx
    -- It is refused on both sides, and then the policy decides.
    cases hp : o.settings.policy with
    | skip => exact feed_akin_of_misfit h (hp ▸ hc) hp he he' hakin hx hx'
    | raise =>
      have hfeed := dispatch_of_raise (s := { s with consumed := s.consumed + 1 }) he hi hx hp
      have hfeed' :=
        dispatch_of_raise (s := { s' with consumed := s'.consumed + 1 }) he'
          (hakin.intact hi) hx' hp
      rw [feed, feed, hfeed, hfeed']
      exact .refused _ _ _ _

/-- All tokens do the same, whatever the order of tags. -/
theorem feedAll_akin (h : s.Akin s') (hc : s.Coherent o.settings.policy) (ts : List Token) :
    Alike Akin (s.feedAll o ts) (s'.feedAll o ts) := by
  induction ts generalizing s s' with
  | nil => exact .ok h
  | cons t ts ih =>
    rcases (feed_akin h hc t).ok_or_refused with
      ⟨x, x', hx, hx', hakin⟩ | ⟨event, status, site, site', hx, hx'⟩
    · rw [feedAll_cons_of_ok hx, feedAll_cons_of_ok hx']
      exact ih hakin (feed_coherent hc hx)
    · rw [feedAll_cons_of_error hx, feedAll_cons_of_error hx']
      exact .refused _ _ _ _

end Scan

end ScopeTags
