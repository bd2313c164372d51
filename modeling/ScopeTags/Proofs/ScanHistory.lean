import ScopeTags.Proofs.ScanInvariant
import ScopeTags.Report

/-!
# What a scan never takes back

A scope only moves forward.  Between two moments of a scan it keeps its id and its parent, goes no
step back in its lifecycle, and loses no tag; its name and its location are given together and for
good.  A qualified name is put together anew each time it is asked for, out of the names around the
scope.  It never changes either, because every scope that has another one inside of it has a name by
then (`Registry.ParentsNamed`).

## Key results

- `Registry.respond_cases`: everything that a response of the registry can do
- `Registry.Precedes`: the order of earlier and later registries
- `Registry.Precedes.qualifiedName_eq`, `Registry.Precedes.describe_eq`: what it means for names and
  reports
- `Scan.states_pairwise_precedes`: the states of a scan are in that order
-/

namespace ScopeTags

/-- How far along the lifecycle a status is. -/
def Status.rank : Status → Nat
  | pending => 0
  | tagged => 1
  | awaitingName => 2
  | named => 3
  | closed => 4

namespace Scope

/-- What a token of a role makes of the scope that it is meant for. -/
inductive Advances (s : Scope) : Role → Scope → Prop where
  | tag {tag : Tag} (h : s.status = .pending ∨ s.status = .tagged) :
      Advances s (.tag tag) (s.withTag tag)
  | opens {construct : Option Construct} (h : s.status ≠ .named) (h' : s.status ≠ .closed) :
      Advances s (.opens construct) (s.awaiting construct)
  | names {text : String} {location : Location} (h : s.status = .awaitingName) :
      Advances s (.names text location) (s.called text location)

/-- `s'` is what has become of `s` at the same moment or later. -/
structure Precedes (s s' : Scope) : Prop where
  id_eq : s'.id = s.id
  parent_eq : s'.parent = s.parent
  rank_le : s.status.rank ≤ s'.status.rank
  tags_subset : ∀ t ∈ s.tags, t ∈ s'.tags
  tags_kept : s'.tags = s.tags ∨ s.status = .pending ∨ s.status = .tagged
  construct_kept : s'.construct = s.construct ∨ s.status.rank < Status.named.rank
  /-- The name and the location are given together, on the way to being named. -/
  named_once : (s'.name = s.name ∧ s'.location = s.location) ∨
    (s.name = none ∧ s'.name.isSome = true ∧ s.status.rank < Status.named.rank ∧
      Status.named.rank ≤ s'.status.rank)
  closed_eq : s.status = .closed → s' = s

namespace Precedes

variable {s s' s'' : Scope}

/-- Every scope is what has become of itself. -/
theorem refl (s : Scope) : s.Precedes s :=
  ⟨rfl, rfl, Nat.le_refl _, fun _ h => h, .inl rfl, .inl rfl, .inl ⟨rfl, rfl⟩, fun _ => rfl⟩

/-- A name that was given stays. -/
theorem name_eq (h : s.Precedes s') (hs : s.name.isSome = true) : s'.name = s.name := by
  rcases h.named_once with ⟨hname, _⟩ | ⟨hnone, _⟩
  · exact hname
  · rw [hnone] at hs
    cases hs

/-- What is at the beginning of the lifecycle was there before. -/
private theorem pending_or_tagged (h : s.Precedes s')
    (hs : s'.status = .pending ∨ s'.status = .tagged) :
    s.status = .pending ∨ s.status = .tagged := by
  have hle := h.rank_le
  rcases hs with hs | hs <;> rw [hs] at hle <;> cases hst : s.status <;>
    simp [hst, Status.rank] at hle ⊢

/-- What becomes of a scope later on becomes of the earlier one. -/
theorem trans (h : s.Precedes s') (h' : s'.Precedes s'') : s.Precedes s'' where
  id_eq := h'.id_eq.trans h.id_eq
  parent_eq := h'.parent_eq.trans h.parent_eq
  rank_le := Nat.le_trans h.rank_le h'.rank_le
  tags_subset t ht := h'.tags_subset t (h.tags_subset t ht)
  tags_kept := by
    rcases h'.tags_kept with heq | hst
    · rw [heq]
      exact h.tags_kept
    · -- Tags may come in the second stretch, so the scope was at the beginning in the first, too.
      exact .inr (h.pending_or_tagged hst)
  construct_kept := by
    rcases h'.construct_kept with heq | hlt
    · rw [heq]
      exact h.construct_kept
    · exact .inr (Nat.lt_of_le_of_lt h.rank_le hlt)
  named_once := by
    rcases h.named_once with ⟨hname, hloc⟩ | ⟨hnone, hsome, hlt, hle⟩
    · rcases h'.named_once with ⟨hname', hloc'⟩ | ⟨hnone', hsome', hlt', hle'⟩
      · exact .inl ⟨hname'.trans hname, hloc'.trans hloc⟩
      · exact .inr ⟨hname ▸ hnone', hsome', Nat.lt_of_le_of_lt h.rank_le hlt', hle'⟩
    · -- The name was given in the first stretch, so it stays in the second.
      exact .inr ⟨hnone, (h'.name_eq hsome).symm ▸ hsome, hlt, Nat.le_trans hle h'.rank_le⟩
  closed_eq hs := by
    have heq := h.closed_eq hs
    rw [heq] at h'
    exact h'.closed_eq hs

end Precedes

/-- A token moves the scope that it is meant for forward. -/
theorem Advances.precedes {s s' : Scope} {role : Role} (h : s.Advances role s')
    (hname : s.name.isSome = true ↔ s.status = .named ∨ s.status = .closed) : s.Precedes s' := by
  -- One case for each way to advance; a name is given only to a scope that has none.
  cases h with
  | tag hst =>
    refine ⟨rfl, rfl, ?_, fun t ht => Tags.mem_insert.mpr (.inr ht), .inr hst, .inl rfl,
      .inl ⟨rfl, rfl⟩, ?_⟩
    · rcases hst with hst | hst <;> simp [hst, withTag, Status.rank]
    · intro hc
      simp [hc] at hst
  | opens hn hc =>
    refine ⟨rfl, rfl, ?_, fun t ht => ht, .inl rfl, .inr ?_, .inl ⟨rfl, rfl⟩, fun h => absurd h hc⟩
    · cases hst : s.status <;> simp_all [awaiting, Status.rank]
    · cases hst : s.status <;> simp_all [Status.rank]
  | names hst =>
    have hnone : s.name = none := by
      rw [← Option.not_isSome_iff_eq_none, hname]
      simp [hst]
    refine ⟨rfl, rfl, ?_, fun t ht => ht, .inl rfl, .inl rfl, .inr ⟨hnone, rfl, ?_, ?_⟩, ?_⟩
    · simp [hst, called, Status.rank]
    · simp [hst, Status.rank]
    · simp [called]
    · intro hc
      simp [hc] at hst

/-- A named scope moves forward when it is closed. -/
private theorem shut_precedes {s : Scope} (hs : s.status = .named) : s.Precedes s.shut :=
  ⟨rfl, rfl, by simp [hs, shut, Status.rank], fun _ h => h, .inl rfl, .inl rfl, .inl ⟨rfl, rfl⟩,
    fun hc => by simp [hc] at hs⟩

end Scope

namespace Registry

/-! ## One response -/

section Respond

variable {r : Registry} {c : Nat} {s : Scope} {role : Role} {x : Registry × Option Nat}

/-- Everything that a response can do while an open scope is current: nothing, move the current
    scope forward, open a scope inside of it, or close it. -/
theorem respond_cases (hs : s.status ≠ .closed) (hx : r.respond c s role = .ok x) :
    x = (r, some c) ∨
      (∃ s', s.Advances role s' ∧ x = (r.set c s', some c)) ∨
      (∃ s', s.status = .named ∧ ((r.inner c).Advances role s' ∨ s' = r.inner c) ∧
        x = (r.push s', some r.size)) ∨
      (s.status = .named ∧ x = (r.set c s.shut, s.parent)) := by
  -- By the role and then by the status.
  cases role with
  | idle => exact .inl (Except.ok.inj hx).symm
  | tag tag =>
    cases hst : s.status <;> simp only [respond, hst, reduceCtorEq] at hx
    case pending => exact .inr (.inl ⟨_, .tag (.inl hst), (Except.ok.inj hx).symm⟩)
    case tagged => exact .inr (.inl ⟨_, .tag (.inr hst), (Except.ok.inj hx).symm⟩)
    case named =>
      exact .inr (.inr (.inl ⟨_, rfl, .inl (.tag (.inl rfl)), (Except.ok.inj hx).symm⟩))
  | drop =>
    cases hst : s.status <;> simp only [respond, hst] at hx
    case named => exact .inr (.inr (.inl ⟨_, rfl, .inr rfl, (Except.ok.inj hx).symm⟩))
    all_goals exact .inl (Except.ok.inj hx).symm
  | opens construct =>
    cases hst : s.status <;> simp only [respond, hst, reduceCtorEq] at hx
    case named =>
      have hinner : (r.inner c).Advances (.opens construct) ((r.inner c).awaiting construct) :=
        .opens (by simp [inner]) (by simp [inner])
      exact .inr (.inr (.inl ⟨_, rfl, .inl hinner, (Except.ok.inj hx).symm⟩))
    all_goals
      exact .inr (.inl ⟨_, .opens (by simp [hst]) (by simp [hst]), (Except.ok.inj hx).symm⟩)
  | closes =>
    cases hst : s.status <;> simp only [respond, hst, reduceCtorEq] at hx
    case named => exact .inr (.inr (.inr ⟨rfl, (Except.ok.inj hx).symm⟩))
    case closed => exact absurd hst hs
  | names text location =>
    cases hst : s.status <;> simp only [respond, hst] at hx
    case awaitingName => exact .inr (.inl ⟨_, .names hst, (Except.ok.inj hx).symm⟩)
    all_goals exact .inl (Except.ok.inj hx).symm

end Respond

/-! ## Earlier and later registries -/

/-- Every scope of `r` is in `r'`, at the same moment or later. -/
def Precedes (r r' : Registry) : Prop :=
  ∀ i s, r.get? i = some s → ∃ s', r'.get? i = some s' ∧ s.Precedes s'

/-- Every scope that has another one inside of it has a name. -/
def ParentsNamed (r : Registry) : Prop :=
  ∀ i s p, r.get? i = some s → s.parent = some p →
    ∃ e, r.get? p = some e ∧ e.name.isSome = true

namespace Precedes

variable {r r' r'' : Registry} {c : Nat} {s s' : Scope}

/-- A registry is at the same moment as itself. -/
theorem refl (r : Registry) : r.Precedes r := fun _ s hs => ⟨s, hs, .refl s⟩

/-- The order is transitive. -/
theorem trans (h : r.Precedes r') (h' : r'.Precedes r'') : r.Precedes r'' := by
  intro i s hs
  obtain ⟨s', hs', hle⟩ := h i s hs
  obtain ⟨s'', hs'', hle'⟩ := h' i s' hs'
  exact ⟨s'', hs'', hle.trans hle'⟩

/-- A scope that moves forward takes its registry along. -/
theorem set (hs : r.get? c = some s) (h : s.Precedes s') : r.Precedes (r.set c s') := by
  intro i e he
  by_cases hi : c = i
  · subst hi
    rw [hs] at he
    obtain rfl := Option.some.inj he
    exact ⟨s', get?_set_self (lt_size_of_get? hs) s', h⟩
  · exact ⟨e, (get?_set_ne hi s').trans he, .refl e⟩

/-- A new scope takes its registry along. -/
theorem push (r : Registry) (s : Scope) : r.Precedes (r.push s) := fun _ e he =>
  ⟨e, (get?_push_of_lt (lt_size_of_get? he) s).trans he, .refl e⟩

/-- The names on the way to a scope that has a name stay as they are. -/
theorem path_eq (h : r.Precedes r') (harranged : r.Arranged) (hnamed : r.ParentsNamed) {i : Nat}
    {s : Scope} (hs : r.get? i = some s) (hname : s.name.isSome = true) :
    r'.path i = r.path i := by
  -- Outwards from `i`: each scope on the way has another one inside of it, so it has a name.
  induction i using Nat.strongRecOn generalizing s with
  | ind i ih =>
    obtain ⟨s', hs', hle⟩ := h i s hs
    rw [path, path, hs, hs']
    simp only [hle.parent_eq, hle.name_eq hname]
    cases hp : s.parent with
    | none => rfl
    | some p =>
      obtain ⟨e, he, hename⟩ := hnamed i s p hs hp
      have hlt := (harranged i s hs).parent_lt p hp
      simp only [if_pos hlt, ih p hlt he hename]

/-- A scope that has a qualified name keeps it. -/
theorem qualifiedName_eq (h : r.Precedes r') (harranged : r.Arranged) (hnamed : r.ParentsNamed)
    {i : Nat} {s : Scope} (hs : r.get? i = some s) (hst : s.isNamed = true) :
    r'.qualifiedName i = r.qualifiedName i := by
  obtain ⟨s', hs', hle⟩ := h i s hs
  -- A scope that is named stays so, and with its construct and its name.
  have hrank : Status.named.rank ≤ s.status.rank := by
    cases hstatus : s.status <;> simp_all [Scope.isNamed, Status.rank]
  have hst' : s'.isNamed = true := by
    have := Nat.le_trans hrank hle.rank_le
    cases hstatus : s'.status <;> simp_all [Scope.isNamed, Status.rank]
  have hconstruct : s'.construct = s.construct :=
    hle.construct_kept.resolve_right (Nat.not_lt.mpr hrank)
  have hname : s'.name = s.name := by
    refine hle.name_eq ((harranged i s hs).name_iff.mpr ?_)
    simpa [Scope.isNamed] using hst
  have houter : s'.parent.elim [] r'.path = s.parent.elim [] r.path := by
    rw [hle.parent_eq]
    cases hp : s.parent with
    | none => rfl
    | some p =>
      obtain ⟨e, he, hename⟩ := hnamed i s p hs hp
      exact h.path_eq harranged hnamed he hename
  simp only [qualifiedName, hs, hs', hst, hst', houter, hconstruct, hname]

/-- The report on a closed scope stays as it is. -/
theorem describe_eq (h : r.Precedes r') (harranged : r.Arranged) (hnamed : r.ParentsNamed)
    {i : Nat} {s : Scope} (hs : r.get? i = some s) (hst : s.status = .closed) :
    r'.describe i = r.describe i := by
  obtain ⟨s', hs', hle⟩ := h i s hs
  obtain rfl := hle.closed_eq hst
  have hqualified := h.qualifiedName_eq harranged hnamed hs (by simp [Scope.isNamed, hst])
  -- Of the parent the report has only the id, which stays.
  have hparent : Json.ofOption (fun p : Scope => .number p.id) (s'.parent.bind r'.get?) =
      Json.ofOption (fun p : Scope => .number p.id) (s'.parent.bind r.get?) := by
    cases hp : s'.parent with
    | none => rfl
    | some p =>
      obtain ⟨e, he, -⟩ := hnamed i s' p hs hp
      obtain ⟨e', he', hle'⟩ := h p e he
      rw [Option.bind_some, Option.bind_some, he, he']
      simp only [Json.ofOption, hle'.id_eq]
  simp only [describe, toRecord, hs, hs', hqualified, hparent]

end Precedes

namespace ParentsNamed

variable {r : Registry} {c : Nat} {s s' : Scope}

/-- A scope that moves forward loses no name. -/
theorem set (h : r.ParentsNamed) (hs : r.get? c = some s) (hle : s.Precedes s') :
    (r.set c s').ParentsNamed := by
  have hkept := Precedes.set hs hle
  -- A scope that had a name has one now.
  have hstill : ∀ p e, r.get? p = some e → e.name.isSome = true →
      ∃ e', (r.set c s').get? p = some e' ∧ e'.name.isSome = true := by
    intro p e he hename
    obtain ⟨e', he', hle'⟩ := hkept p e he
    exact ⟨e', he', (hle'.name_eq hename).symm ▸ hename⟩
  intro i e p he hp
  by_cases hi : c = i
  · subst hi
    rw [get?_set_self (lt_size_of_get? hs)] at he
    obtain rfl := Option.some.inj he
    obtain ⟨e, he, hename⟩ := h c s p hs (hle.parent_eq ▸ hp)
    exact hstill p e he hename
  · rw [get?_set_ne hi] at he
    obtain ⟨e, he, hename⟩ := h i e p he hp
    exact hstill p e he hename

/-- A new scope has to lie in one that has a name, or in none. -/
theorem push (h : r.ParentsNamed)
    (hs : ∀ p, s.parent = some p → ∃ e, r.get? p = some e ∧ e.name.isSome = true) :
    (r.push s).ParentsNamed := by
  have hstill : ∀ p, (∃ e, r.get? p = some e ∧ e.name.isSome = true) →
      ∃ e, (r.push s).get? p = some e ∧ e.name.isSome = true := by
    rintro p ⟨e, he, hename⟩
    exact ⟨e, (get?_push_of_lt (lt_size_of_get? he) s).trans he, hename⟩
  intro i e p he hp
  rcases get?_push_cases he with ⟨_, he⟩ | ⟨rfl, rfl⟩
  · exact hstill p (h i e p he hp)
  · exact hstill p (hs p hp)

end ParentsNamed

end Registry

/-! ## One token -/

/-- The token gives the scope its name and its location and makes it named, or does none of it. -/
def Scope.NamedAtMost (t : Token) (s s' : Scope) : Prop :=
  (s'.name = s.name ∧ s'.location = s.location ∧ (s'.status = .named → s.status = .named)) ∨
    (s.status = .awaitingName ∧ s'.status = .named ∧ s.name = none ∧ s'.name = some t.text ∧
      s'.location = t.location)

/-- The name and the location are those of the token. -/
private theorem Token.eq_of_role_eq_names {accepts : String → Bool} {t : Token} {text : String}
    {location : Location} (h : t.role accepts = .names text location) :
    text = t.text ∧ location = t.location := by
  simp only [role] at h
  grind

/-- A scope that advances is named by the token or keeps what it had. -/
private theorem Scope.Advances.namedAtMost {s s' : Scope} {accepts : String → Bool} {t : Token}
    (h : s.Advances (t.role accepts) s')
    (hname : s.name.isSome = true ↔ s.status = .named ∨ s.status = .closed) :
    s.NamedAtMost t s' := by
  generalize hrole : t.role accepts = role at h
  cases h with
  | tag hst => exact .inl ⟨rfl, rfl, by simp [withTag]⟩
  | opens hn hc => exact .inl ⟨rfl, rfl, by simp [awaiting]⟩
  | names hst =>
    obtain ⟨rfl, rfl⟩ := Token.eq_of_role_eq_names hrole
    have hnone : s.name = none := by
      rw [← Option.not_isSome_iff_eq_none, hname]
      simp [hst]
    exact .inr ⟨hst, rfl, hnone, rfl, rfl⟩

namespace Registry

/-- `r'` is what the token `t` makes of `r`. -/
structure Follows (t : Token) (r r' : Registry) : Prop where
  precedes : r.Precedes r'
  parentsNamed : r'.ParentsNamed
  named : ∀ i s s', r.get? i = some s → r'.get? i = some s' → s.NamedAtMost t s'

namespace Follows

variable {r r' : Registry} {t : Token} {c : Nat} {s s' : Scope}

/-- A token may do nothing. -/
theorem refl (h : r.ParentsNamed) (t : Token) : r.Follows t r where
  precedes := .refl r
  parentsNamed := h
  named i s s' hs hs' := by
    obtain rfl := Option.some.inj (hs.symm.trans hs')
    exact .inl ⟨rfl, rfl, id⟩

/-- A token may move one scope forward. -/
theorem set (h : r.ParentsNamed) (hs : r.get? c = some s) (hle : s.Precedes s')
    (hname : s.NamedAtMost t s') : r.Follows t (r.set c s') where
  precedes := .set hs hle
  parentsNamed := h.set hs hle
  named i e e' he he' := by
    by_cases hi : c = i
    · subst hi
      rw [get?_set_self (lt_size_of_get? hs)] at he'
      obtain rfl := Option.some.inj (hs.symm.trans he)
      obtain rfl := Option.some.inj he'
      exact hname
    · rw [get?_set_ne hi] at he'
      exact (refl h t).named i e e' he he'

/-- One more scope, inside of one that has a name or of none, makes no difference to the others. -/
theorem push (h : r.Follows t r')
    (hs : ∀ p, s.parent = some p → ∃ e, r'.get? p = some e ∧ e.name.isSome = true) :
    r.Follows t (r'.push s) where
  precedes := h.precedes.trans (.push r' s)
  parentsNamed := h.parentsNamed.push hs
  named i e e' he he' := by
    obtain ⟨e'', he'', -⟩ := h.precedes i e he
    rw [get?_push_of_lt (lt_size_of_get? he'')] at he'
    exact h.named i e e' he he'

end Follows

end Registry

namespace Scan

/-- What holds of the scopes in every state of a scan. -/
structure Sound (policy : Policy) (s : Scan) : Prop where
  coherent : s.Coherent policy
  parentsNamed : s.registry.ParentsNamed

/-- At the start there is one scope, without a parent. -/
theorem start_sound (policy : Policy) : start.Sound policy where
  coherent := start_coherent policy
  parentsNamed := by
    have hparent : ∀ s ∈ start.registry.scopes, s.parent = none := by decide
    intro i s p hs hp
    rw [hparent s (List.mem_of_getElem? hs)] at hp
    cases hp

/-- Where no scope is left to receive tokens, only an outermost one is added. -/
private theorem follows_moved {r : Registry} {t : Token} {x : Registry × Option Nat}
    (h : r.Follows t x.1) (s : Scan) : r.Follows t (s.moved x).registry := by
  obtain ⟨registry, receiver⟩ := x
  cases receiver with
  | some i => exact h
  | none => exact h.push (fun p hp => by cases hp)

/-- What a response makes of the scopes. -/
private theorem respond_follows {policy : Policy} {s : Scan} {e : Scope} {accepts : String → Bool}
    {t : Token} {x : Registry × Option Nat} (h : s.Sound policy) (he : s.currentScope? = some e)
    (hx : s.registry.respond s.current e (t.role accepts) = .ok x) :
    s.registry.Follows t x.1 := by
  have hplaced := h.coherent.arranged _ e he
  have hopen : e.status ≠ .closed := by
    obtain ⟨e', he', hst⟩ := h.coherent.current_open
    obtain rfl := Option.some.inj (he.symm.trans he')
    exact hst
  rcases Registry.respond_cases hopen hx with
    rfl | ⟨e', hadv, rfl⟩ | ⟨e', hst, hinner, rfl⟩ | ⟨hst, rfl⟩
  · exact .refl h.parentsNamed t
  · exact .set h.parentsNamed he (hadv.precedes hplaced.name_iff)
      (hadv.namedAtMost hplaced.name_iff)
  · -- The scope that is opened lies inside of the current one, which has a name.
    have hparent : e'.parent = some s.current := by
      rcases hinner with hadv | rfl
      · generalize t.role accepts = role at hadv
        cases hadv <;> rfl
      · rfl
    refine (Registry.Follows.refl h.parentsNamed t).push ?_
    intro p hp
    obtain rfl := Option.some.inj (hparent.symm.trans hp)
    exact ⟨e, he, hplaced.name_iff.mpr (.inl hst)⟩
  · exact .set h.parentsNamed he (Scope.shut_precedes hst) (.inl ⟨rfl, rfl, by simp [Scope.shut]⟩)

/-- What one token makes of the scopes. -/
private theorem feed_follows {o : Options} {t : Token} {s s' : Scan} {notices : List Notice}
    (h : s.Sound o.settings.policy) (hf : s.feed o t = .ok (s', notices)) :
    s.registry.Follows t s'.registry := by
  obtain ⟨e, he, ⟨x, hx, rfl⟩ | ⟨fault, _, _, rfl⟩ | ⟨p, e', _, _, _, _, he', hn, rfl⟩⟩ :=
    feed_cases h.coherent hf
  · exact follows_moved (respond_follows h he hx) _
  · exact .refl h.parentsNamed t
  · -- The `end` goes to the parent and closes it.
    have hshut : e'.NamedAtMost t e'.shut := .inl ⟨rfl, rfl, by simp [Scope.shut]⟩
    exact follows_moved (x := (s.registry.set p e'.shut, e'.parent))
      (.set h.parentsNamed he' (Scope.shut_precedes hn) hshut) _

/-- A token keeps the state sound. -/
theorem feed_sound {o : Options} {t : Token} {s s' : Scan} {notices : List Notice}
    (h : s.Sound o.settings.policy) (hf : s.feed o t = .ok (s', notices)) :
    s'.Sound o.settings.policy :=
  ⟨feed_coherent h.coherent hf, (feed_follows h hf).parentsNamed⟩

/-- Tokens one after the other keep the state sound. -/
theorem Feeds.sound {o : Options} {s s' : Scan} {ts : List Token} (h : Feeds o s ts s')
    (hs : s.Sound o.settings.policy) : s'.Sound o.settings.policy := by
  induction h with
  | nil s => exact hs
  | cons hfeed _ ih => exact ih (feed_sound hs hfeed)

/-! ## All tokens -/

/-- `s'` is a state of the same scan as `s`, at the same moment or later. -/
structure Precedes (s s' : Scan) : Prop where
  scopes : s.registry.Precedes s'.registry
  qualifiedName_eq : ∀ i name, s.registry.qualifiedName i = some name →
    s'.registry.qualifiedName i = some name
  describe_eq : ∀ i e, s.registry.get? i = some e → e.status = .closed →
    s'.registry.describe i = s.registry.describe i

/-- Where the scopes are in order, names and reports are kept. -/
private theorem precedes_of_scopes {policy : Policy} {s s' : Scan} (h : s.Sound policy)
    (hle : s.registry.Precedes s'.registry) : s.Precedes s' where
  scopes := hle
  qualifiedName_eq i name hname := by
    rw [← hname]
    cases he : s.registry.get? i with
    | none => simp [Registry.qualifiedName, he] at hname
    | some e =>
      refine hle.qualifiedName_eq h.coherent.arranged h.parentsNamed he ?_
      -- Only a scope that is named has a qualified name.
      cases hst : e.isNamed with
      | true => rfl
      | false => simp [Registry.qualifiedName, he, hst] at hname
  describe_eq _ _ he hst := hle.describe_eq h.coherent.arranged h.parentsNamed he hst

/-- The steps from a state through those after the tokens that were taken: each with the state
    before it, the token, and the state after it. -/
def stepsFrom : Scan → List (Token × Scan) → List (Scan × Token × Scan)
  | _, [] => []
  | s, (t, next) :: visits => (s, t, next) :: stepsFrom next visits

/-- The tokens of the steps are those that were taken. -/
theorem map_token_stepsFrom (s : Scan) (visits : List (Token × Scan)) :
    (stepsFrom s visits).map (·.2.1) = visits.map Prod.fst := by
  induction visits generalizing s with
  | nil => rfl
  | cons visit visits ih => exact congrArg (visit.1 :: ·) (ih visit.2)

/-- The steps of a scan. -/
def steps (o : Options) (events : List Source.Event) : List (Scan × Token × Scan) :=
  stepsFrom start (run o events).visits

/-- From a sound state on, all states are sound, they are in the order of earlier and later, and
    each follows from the one before it. -/
theorem runFrom_precedes {o : Options} {s : Scan} (h : s.Sound o.settings.policy)
    (events : List Source.Event) :
    let states := s :: (s.runFrom o events).visits.map (·.2) ++ [(s.runFrom o events).final]
    (∀ s' ∈ states, s'.Sound o.settings.policy) ∧
      states.Pairwise (fun s s' => s.registry.Precedes s'.registry) ∧
      ∀ step ∈ stepsFrom s (s.runFrom o events).visits,
        step.1.registry.Follows step.2.1 step.2.2.registry := by
  -- A scan that stops at once is in one state only.
  have hsame : ∀ s : Scan, s.Sound o.settings.policy →
      (∀ s' ∈ [s, s], s'.Sound o.settings.policy) ∧
        [s, s].Pairwise (fun s s' => s.registry.Precedes s'.registry) ∧
        ∀ step ∈ stepsFrom s [], step.1.registry.Follows step.2.1 step.2.2.registry := by
    intro s h
    refine ⟨by simpa using h, by simpa using Registry.Precedes.refl s.registry, ?_⟩
    intro step hstep
    cases hstep
  -- By induction along the run.  Only a token that is taken leads to another state.
  fun_induction runFrom o s events with
  | case1 s => exact hsame s h
  | case2 s event events fault hfault => exact hsame s h
  | case3 s event events hfault htoken run ih => exact ih h
  | case4 s event events hfault t htoken hcancel => exact hsame s h
  | case5 s event events hfault t htoken hcancel fault hfeed => exact hsame s h
  | case6 s event events hfault t htoken hcancel next notices hfeed run ih =>
    have hfollows := feed_follows h hfeed
    obtain ⟨hsound, hlater, hsteps⟩ := ih (feed_sound h hfeed)
    refine ⟨?_, List.pairwise_cons.mpr ⟨?_, hlater⟩, ?_⟩
    · intro s' hs'
      rcases List.mem_cons.mp hs' with rfl | hs'
      · exact h
      · exact hsound s' hs'
    · -- Whatever comes after the next state comes after this one.
      intro s' hs'
      rcases List.mem_cons.mp hs' with rfl | hs'
      · exact hfollows.precedes
      · exact hfollows.precedes.trans ((List.pairwise_cons.mp hlater).1 s' hs')
    · intro step hstep
      rcases List.mem_cons.mp hstep with rfl | hstep
      · exact hfollows
      · exact hsteps step hstep

/-- Of any two states of a scan, whatever the tokens and the settings, the later one has all scopes
    of the earlier one.  Each of them has the id and the parent that it had, is as far along its
    lifecycle or further, has lost no tag, has got one only if it was pending or tagged, and is
    another construct only if it was not named yet.  A name and a location that were given stay, as
    do qualified names, and the report on a closed scope does not change.  In each single step, a
    name and a location are given only together, by the token, to a scope that awaits its name and
    is named by it; and no scope becomes named without. -/
theorem states_pairwise_precedes (o : Options) (events : List Source.Event) :
    (states o events).Pairwise Precedes ∧
      ∀ step ∈ steps o events, ∀ i e e', step.1.registry.get? i = some e →
        step.2.2.registry.get? i = some e' → e.NamedAtMost step.2.1 e' := by
  obtain ⟨hsound, hlater, hsteps⟩ := runFrom_precedes (start_sound o.settings.policy) events
  refine ⟨?_, fun step hstep => (hsteps step hstep).named⟩
  -- The earlier state of each pair is sound, which is what names and reports need.
  refine List.Pairwise.imp_of_mem ?_ hlater
  intro s s' hs _ hle
  exact precedes_of_scopes (hsound s hs) hle

/-- A method in a module, which is named by its fourth token. -/
theorem states_pairwise_precedes_method :
    let o : Options := {}
    let events : List Source.Event :=
      [.token (Token.keyword "module" none none ⟨1, 1, none⟩),
        .token (Token.constant "Foo" ⟨1, 8, none⟩),
        .token (Token.keyword "def" none none ⟨2, 3, none⟩),
        .token (Token.identifier "bar" ⟨2, 7, none⟩),
        .token (Token.keyword "end" none none ⟨3, 3, none⟩),
        .token (Token.keyword "end" none none ⟨4, 1, none⟩)]
    (states o events).Pairwise Precedes ∧
      ∃ step ∈ steps o events, ∃ e e', step.1.registry.get? 1 = some e ∧
        step.2.2.registry.get? 1 = some e' ∧ e.status = .awaitingName ∧ e'.status = .named ∧
        e.NamedAtMost step.2.1 e' := by
  intro o events
  have hstep : (steps o events)[3]?.any (fun step =>
      (step.1.registry.get? 1).any (·.status = .awaitingName) &&
        (step.2.2.registry.get? 1).any (·.status = .named)) = true := by
    decide +kernel
  obtain ⟨step, hstep, hst⟩ := (Option.any_eq_true _ _).mp hstep
  obtain ⟨hbefore, hafter⟩ := Bool.and_eq_true_iff.mp hst
  obtain ⟨e, he, hst⟩ := (Option.any_eq_true _ _).mp hbefore
  obtain ⟨e', he', hst'⟩ := (Option.any_eq_true _ _).mp hafter
  obtain ⟨hlater, hnamed⟩ := states_pairwise_precedes o events
  have hmem := List.mem_of_getElem? hstep
  exact ⟨hlater, step, hmem, e, e', he, he', of_decide_eq_true hst, of_decide_eq_true hst',
    hnamed step hmem 1 e e' he he'⟩

end Scan

end ScopeTags
