import ScopeTags.Proofs.ScanStep

/-!
# What holds throughout a scan

At every moment of a scan the scopes form a forest in which the current scope is open and all scopes
around it are named.  Every other scope is closed, or was left behind without a name when an `end`
went to its parent.

## Key results

- `Registry.Coherent`: the invariant
- `Registry.Coherent.alter`, `.descend`, `.ascend`, `.renew`, `.yield`: each way in which the
  current scope moves keeps it
- `Scan.feed_cases`: everything that one token can do
- `Scan.runFrom_coherent`: it holds in every state that a scan goes through
-/

namespace ScopeTags

namespace Registry

/-- The parent of scope `i`, if it has one. -/
def parentOf (r : Registry) (i : Nat) : Option Nat := (r.get? i).bind (·.parent)

/-- Scope `a` lies around scope `i`, at whatever distance. -/
inductive Encloses (r : Registry) : Nat → Nat → Prop where
  | parent {a i : Nat} (h : r.parentOf i = some a) : Encloses r a i
  | outer {a b i : Nat} (h : r.parentOf i = some b) (hb : Encloses r a b) : Encloses r a i

/-- What holds of a scope at place `i` of a scan, whichever scope is current. -/
structure Placed (i : Nat) (s : Scope) : Prop where
  id_eq : s.id = i
  arena_eq : s.arena = some Scan.arena
  parent_lt : ∀ p, s.parent = some p → p < i
  intact : s.Intact
  name_iff : s.name.isSome = true ↔ s.status = .named ∨ s.status = .closed

/-- Every scope is at its place. -/
def Arranged (r : Registry) : Prop := ∀ i s, r.get? i = some s → Placed i s

/-- The state of the scopes while scope `current` receives the tokens. -/
structure Coherent (r : Registry) (policy : Policy) (current : Nat) : Prop where
  arranged : r.Arranged
  current_open : ∃ s, r.get? current = some s ∧ s.status ≠ .closed
  around_named : ∀ a s, r.Encloses a current → r.get? a = some s → s.status = .named
  elsewhere : ∀ i s, r.get? i = some s → i ≠ current → ¬r.Encloses i current →
    s.status = .closed ∨
      policy = .skip ∧ (s.status = .pending ∨ s.status = .tagged) ∧ s.parent.isSome = true

/-! ## Scopes around a scope -/

section Encloses

variable {r r' : Registry} {a i : Nat} {s s' : Scope}

/-- The parent of a scope that is there. -/
private theorem parentOf_eq (h : r.get? i = some s) : r.parentOf i = s.parent := by
  rw [parentOf, h, Option.bind_some]

/-- What lies around a scope is its parent, or lies around that. -/
private theorem encloses_iff :
    r.Encloses a i ↔ ∃ p, r.parentOf i = some p ∧ (a = p ∨ r.Encloses a p) := by
  constructor
  · intro h
    cases h with
    | parent h => exact ⟨a, h, .inl rfl⟩
    | outer h hb => exact ⟨_, h, .inr hb⟩
  · rintro ⟨p, hp, rfl | ha⟩
    · exact .parent hp
    · exact .outer hp ha

/-- Which scopes lie around others depends on the parents only. -/
theorem Encloses.congr (h : r.Encloses a i) (hp : ∀ j, r'.parentOf j = r.parentOf j) :
    r'.Encloses a i := by
  induction h with
  | parent h => exact .parent ((hp _).trans h)
  | outer h _ ih => exact .outer ((hp _).trans h) ih

/-- A scope changes no parents if it keeps its own. -/
private theorem parentOf_set (h : r.get? i = some s) (hp : s'.parent = s.parent) (j : Nat) :
    (r.set i s').parentOf j = r.parentOf j := by
  by_cases hj : i = j
  · subst hj
    rw [parentOf, get?_set_self (lt_size_of_get? h), Option.bind_some, hp, parentOf_eq h]
  · rw [parentOf, get?_set_ne hj, parentOf]

/-- A scope that keeps its parent may change without moving. -/
private theorem encloses_set (h : r.get? i = some s) (hp : s'.parent = s.parent) {b : Nat} :
    (r.set i s').Encloses a b ↔ r.Encloses a b :=
  ⟨fun ha => ha.congr fun j => (parentOf_set h hp j).symm, fun ha => ha.congr (parentOf_set h hp)⟩

/-- Parents have smaller numbers. -/
private theorem parentOf_lt (h : r.Arranged) {p : Nat} (hp : r.parentOf i = some p) : p < i := by
  obtain ⟨s, hs, hsp⟩ := Option.bind_eq_some_iff.mp hp
  exact (h i s hs).parent_lt p hsp

/-- All scopes around a scope have smaller numbers. -/
theorem Encloses.lt (h : r.Arranged) (ha : r.Encloses a i) : a < i := by
  induction ha with
  | parent hp => exact parentOf_lt h hp
  | outer hp _ ih => exact Nat.lt_trans ih (parentOf_lt h hp)

/-- What is neither the parent nor around it is not around the scope. -/
private theorem not_encloses_of_parentOf {p : Nat} (hp : r.parentOf i = some p) (hne : a ≠ p)
    (ha : ¬r.Encloses a p) : ¬r.Encloses a i := by
  rw [encloses_iff]
  rintro ⟨q, hq, haq⟩
  obtain rfl := Option.some.inj (hp.symm.trans hq)
  exact haq.elim hne ha

/-- Nothing lies around an outermost scope. -/
private theorem not_encloses_of_parentOf_none (hp : r.parentOf i = none) : ¬r.Encloses a i := by
  rw [encloses_iff, hp]
  rintro ⟨q, hq, _⟩
  cases hq

/-- A new scope changes no parents. -/
private theorem parentOf_push_of_lt (h : i < r.size) (s : Scope) :
    (r.push s).parentOf i = r.parentOf i := by
  rw [parentOf, get?_push_of_lt h, parentOf]

/-- Its own is the one that it was made with. -/
private theorem parentOf_push_size (r : Registry) (s : Scope) :
    (r.push s).parentOf r.size = s.parent := by
  rw [parentOf, get?_push_size, Option.bind_some]

/-- One more scope lies around none of the others. -/
private theorem encloses_push_of_lt (h : r.Arranged) (hi : i < r.size) (s : Scope) :
    (r.push s).Encloses a i ↔ r.Encloses a i := by
  -- The way outwards from `i` stays below the new scope, since parents have smaller numbers.
  induction i using Nat.strongRecOn with
  | ind i ih =>
    rw [encloses_iff, encloses_iff, parentOf_push_of_lt hi]
    constructor
    · rintro ⟨p, hp, ha⟩
      have hlt := parentOf_lt h hp
      exact ⟨p, hp, ha.imp_right (ih p hlt (Nat.lt_trans hlt hi)).mp⟩
    · rintro ⟨p, hp, ha⟩
      have hlt := parentOf_lt h hp
      exact ⟨p, hp, ha.imp_right (ih p hlt (Nat.lt_trans hlt hi)).mpr⟩

end Encloses

/-! ## Placed scopes -/

section Placed

variable {r : Registry} {i c : Nat} {s s' : Scope}

/-- A scope may be replaced by one that fits its place. -/
theorem arranged_set (h : r.Arranged) (hc : c < r.size) (hs' : Placed c s') :
    (r.set c s').Arranged := by
  intro i s hi
  by_cases hci : c = i
  · subst hci
    rw [get?_set_self hc] at hi
    obtain rfl := Option.some.inj hi
    exact hs'
  · rw [get?_set_ne hci] at hi
    exact h i s hi

/-- A new one has to fit the next place. -/
private theorem arranged_push (h : r.Arranged) (hs' : Placed r.size s') :
    (r.push s').Arranged := by
  intro i s hi
  rcases get?_push_cases hi with ⟨_, hi⟩ | ⟨rfl, rfl⟩
  · exact h i s hi
  · exact hs'

/-- The arena of a scan holds all of its scopes, so it numbers them as the registry does. -/
private theorem nextId_arena (h : r.Arranged) :
    r.nextId (some Scan.arena) = r.size := by
  have hall : ∀ s ∈ r.scopes, decide (s.arena = some Scan.arena) = true := by
    intro s hs
    obtain ⟨i, hi⟩ := List.mem_iff_getElem?.mp hs
    exact decide_eq_true (h i s hi).arena_eq
  rw [nextId, inArena, List.filter_eq_self.mpr hall, size]

/-- A scope that is opened has the next number. -/
theorem inner_eq (h : r.Arranged) (hc : r.get? c = some s) :
    r.inner c = { id := r.size, arena := some Scan.arena, parent := some c } := by
  have ha := (h c s hc).arena_eq
  simp only [inner, hc, Option.bind_some, ha, nextId_arena h]

/-- A new outermost scope has the next number. -/
theorem addRoot_eq (h : r.Arranged) :
    Scan.addRoot r = r.push { id := r.size, arena := some Scan.arena } := by
  simp only [Scan.addRoot, enroll, push, Option.some_or, nextId_arena h]

end Placed

/-! ## How the current scope moves -/

namespace Coherent

variable {r : Registry} {policy : Policy} {c p : Nat} {s s' : Scope}

/-- The current scope changes and stays current. -/
theorem alter (h : r.Coherent policy c) (hs : r.get? c = some s) (hs' : Placed c s')
    (hp : s'.parent = s.parent) (hst : s'.status ≠ .closed) :
    (r.set c s').Coherent policy c := by
  have hc := lt_size_of_get? hs
  refine ⟨arranged_set h.arranged hc hs', ⟨s', get?_set_self hc s', hst⟩, ?_, ?_⟩
  · intro a e ha he
    rw [encloses_set hs hp] at ha
    -- A scope around the current one is another one.
    have hne : c ≠ a := by
      have := ha.lt h.arranged
      omega
    rw [get?_set_ne hne] at he
    exact h.around_named a e ha he
  · intro i e he hi ha
    rw [encloses_set hs hp] at ha
    rw [get?_set_ne (Ne.symm hi)] at he
    exact h.elsewhere i e he hi ha

/-- A scope is opened inside of the current one and becomes current. -/
theorem descend (h : r.Coherent policy c) (hs : r.get? c = some s) (hn : s.status = .named)
    (hs' : Placed r.size s') (hp : s'.parent = some c) (hst : s'.status ≠ .closed) :
    (r.push s').Coherent policy r.size := by
  have hc := lt_size_of_get? hs
  -- Around the new scope lie the one that was current and those around it.
  have haround : ∀ a, (r.push s').Encloses a r.size ↔ a = c ∨ r.Encloses a c := by
    intro a
    rw [encloses_iff, parentOf_push_size, hp]
    constructor
    · rintro ⟨p, hcp, ha⟩
      obtain rfl := Option.some.inj hcp
      exact ha.imp_right (encloses_push_of_lt h.arranged hc s').mp
    · intro ha
      exact ⟨c, rfl, ha.imp_right (encloses_push_of_lt h.arranged hc s').mpr⟩
  refine ⟨arranged_push h.arranged hs', ⟨s', get?_push_size r s', hst⟩, ?_, ?_⟩
  · intro a e ha he
    have halt : a < r.size := ha.lt (arranged_push h.arranged hs')
    rw [get?_push_of_lt halt] at he
    rcases (haround a).mp ha with rfl | ha
    · rw [hs] at he
      obtain rfl := Option.some.inj he
      exact hn
    · exact h.around_named a e ha he
  · intro i e he hi ha
    rw [haround, not_or] at ha
    rcases get?_push_cases he with ⟨_, he⟩ | ⟨rfl, _⟩
    · exact h.elsewhere i e he ha.1 ha.2
    · exact absurd rfl hi

/-- The scope around the current one is there, and it is named. -/
theorem parent_named (h : r.Coherent policy c) (hs : r.get? c = some s) (hp : s.parent = some p) :
    p < c ∧ ∃ e, r.get? p = some e ∧ e.status = .named := by
  have hcp : r.parentOf c = some p := (parentOf_eq hs).trans hp
  have hlt : p < c := parentOf_lt h.arranged hcp
  obtain ⟨e, he⟩ : ∃ e, r.get? p = some e :=
    ⟨_, List.getElem?_eq_getElem (Nat.lt_trans hlt (lt_size_of_get? hs))⟩
  exact ⟨hlt, e, he, h.around_named p e (.parent hcp) he⟩

/-- The place of a scope that is closed. -/
theorem placed_shut (hs : Placed c s) (hn : s.status = .named) : Placed c s.shut := by
  refine ⟨hs.id_eq, hs.arena_eq, hs.parent_lt, by simp [Scope.Intact, Scope.shut], ?_⟩
  have hname : s.name.isSome = true := hs.name_iff.mpr (.inl hn)
  simp [Scope.shut, hname]

/-- The current scope is closed and the one around it becomes current. -/
theorem ascend (h : r.Coherent policy c) (hs : r.get? c = some s) (hn : s.status = .named)
    (hp : s.parent = some p) : (r.set c s.shut).Coherent policy p := by
  have hc := lt_size_of_get? hs
  have hcp : r.parentOf c = some p := (parentOf_eq hs).trans hp
  obtain ⟨hlt, e, he, hen⟩ := h.parent_named hs hp
  have henc {a b : Nat} : (r.set c s.shut).Encloses a b ↔ r.Encloses a b :=
    encloses_set hs (show s.shut.parent = s.parent from rfl)
  have harranged := arranged_set h.arranged hc (placed_shut (h.arranged c s hs) hn)
  refine ⟨harranged, ⟨e, ?_, by simp [hen]⟩, ?_, ?_⟩
  · -- The scope around is another one than the one that is closed, so it is as it was.
    rw [get?_set_ne (by omega), he]
  · intro a e ha he
    rw [henc] at ha
    have hap := ha.lt h.arranged
    rw [get?_set_ne (by omega)] at he
    exact h.around_named a e (.outer hcp ha) he
  · intro i e he hi ha
    rw [henc] at ha
    by_cases hci : c = i
    · subst hci
      rw [get?_set_self hc] at he
      obtain rfl := Option.some.inj he
      exact .inl rfl
    · rw [get?_set_ne hci] at he
      exact h.elsewhere i e he (Ne.symm hci) (not_encloses_of_parentOf hcp hi ha)

/-- The current scope, an outermost one, is closed and a new outermost one becomes current. -/
theorem renew (h : r.Coherent policy c) (hs : r.get? c = some s) (hn : s.status = .named)
    (hp : s.parent = none) : (Scan.addRoot (r.set c s.shut)).Coherent policy r.size := by
  have hc := lt_size_of_get? hs
  have hcp : r.parentOf c = none := (parentOf_eq hs).trans hp
  have hplaced := arranged_set h.arranged hc (placed_shut (h.arranged c s hs) hn)
  have hsize : (r.set c s.shut).size = r.size := size_set r c s.shut
  rw [addRoot_eq hplaced, hsize]
  have hroot : Placed r.size { id := r.size, arena := some Scan.arena } :=
    ⟨rfl, rfl, by simp, by simp [Scope.Intact], by simp⟩
  -- Nothing lies around the new scope.
  have hout : ∀ a, ¬((r.set c s.shut).push
      { id := r.size, arena := some Scan.arena }).Encloses a r.size := by
    intro a
    rw [← hsize]
    exact not_encloses_of_parentOf_none (parentOf_push_size _ _)
  refine ⟨arranged_push hplaced (hsize ▸ hroot), ⟨_, hsize ▸ get?_push_size _ _, by simp⟩, ?_, ?_⟩
  · intro a e ha
    exact absurd ha (hout a)
  · intro i e he hi _
    rcases get?_push_cases he with ⟨_, he⟩ | ⟨rfl, _⟩
    · by_cases hci : c = i
      · subst hci
        rw [get?_set_self hc] at he
        obtain rfl := Option.some.inj he
        exact .inl rfl
      · rw [get?_set_ne hci] at he
        exact h.elsewhere i e he (Ne.symm hci) (not_encloses_of_parentOf_none hcp)
    · exact absurd hsize hi

/-- The scope around the current one becomes current, and the current one is left behind. -/
theorem yield (h : r.Coherent .skip c) (hs : r.get? c = some s)
    (hst : s.status = .pending ∨ s.status = .tagged) (hp : s.parent = some p) :
    r.Coherent .skip p := by
  have hcp : r.parentOf c = some p := (parentOf_eq hs).trans hp
  obtain ⟨_, e, he, hen⟩ := h.parent_named hs hp
  refine ⟨h.arranged, ⟨e, he, by simp [hen]⟩, ?_, ?_⟩
  · intro a e ha he
    exact h.around_named a e (.outer hcp ha) he
  · intro i e he hi ha
    by_cases hci : i = c
    · subst hci
      rw [hs] at he
      obtain rfl := Option.some.inj he
      -- The scope left behind is what the skip policy allows elsewhere.
      exact .inr ⟨rfl, hst, by simp [hp]⟩
    · exact h.elsewhere i e he hci (not_encloses_of_parentOf hcp hi ha)

end Coherent

/-! ## One response -/

section Respond

variable {r : Registry} {policy : Policy} {c : Nat} {s : Scope}

/-- A tag leaves a scope in its place. -/
private theorem placed_withTag (hs : Placed c s) (hst : s.status = .pending ∨ s.status = .tagged)
    (tag : Tag) : Placed c (s.withTag tag) := by
  refine ⟨hs.id_eq, hs.arena_eq, hs.parent_lt, ?_, ?_⟩
  · have := hs.intact
    rcases hst with hst | hst <;> simp_all [Scope.Intact, Scope.withTag]
  · have := hs.name_iff
    rcases hst with hst | hst <;> simp_all [Scope.withTag]

/-- The keyword of its construct leaves a scope at its place. -/
private theorem placed_awaiting (hs : Placed c s) (hst : s.status ≠ .named ∧ s.status ≠ .closed)
    (construct : Option Construct) : Placed c (s.awaiting construct) := by
  refine ⟨hs.id_eq, hs.arena_eq, hs.parent_lt, ?_, ?_⟩
  · have := hs.intact
    simp_all [Scope.Intact, Scope.awaiting]
  · have := hs.name_iff
    simp_all [Scope.awaiting]

/-- Its name leaves a scope at its place. -/
private theorem placed_called (hs : Placed c s) (hst : s.status = .awaitingName) (name : String)
    (location : Location) : Placed c (s.called name location) := by
  refine ⟨hs.id_eq, hs.arena_eq, hs.parent_lt, ?_, ?_⟩
  · have := hs.intact
    simp_all [Scope.Intact, Scope.called]
  · simp [Scope.called]

/-- The scope that the current one opens inside of itself has its place after all others. -/
private theorem placed_inner (h : r.Coherent policy c) (hs : r.get? c = some s) :
    Placed r.size (r.inner c) := by
  rw [inner_eq h.arranged hs]
  refine ⟨rfl, rfl, ?_, by simp [Scope.Intact], by simp⟩
  intro p hp
  obtain rfl := Option.some.inj hp
  exact lt_size_of_get? hs

/-- A response of the registry keeps the invariant. -/
theorem Coherent.respond (h : r.Coherent policy c) (hs : r.get? c = some s)
    (scan : Scan) {role : Role} {x : Registry × Option Nat} (hx : r.respond c s role = .ok x) :
    (scan.moved x).registry.Coherent policy (scan.moved x).current := by
  have hopen : s.status ≠ .closed := by
    obtain ⟨s', hs', hst⟩ := h.current_open
    rw [hs] at hs'
    obtain rfl := Option.some.inj hs'
    exact hst
  have hplaced := h.arranged c s hs
  have hinner := placed_inner h hs
  -- By role, and in each by status; where the response is a fault there is nothing to show.
  cases role with
  | idle =>
    obtain rfl := Except.ok.inj hx
    exact h
  | tag tag =>
    cases hst : s.status <;> simp only [Registry.respond, hst, reduceCtorEq] at hx
    case pending =>
      obtain rfl := Except.ok.inj hx
      exact h.alter hs (placed_withTag hplaced (.inl hst) tag) rfl (by simp [Scope.withTag])
    case tagged =>
      obtain rfl := Except.ok.inj hx
      exact h.alter hs (placed_withTag hplaced (.inr hst) tag) rfl (by simp [Scope.withTag])
    case named =>
      obtain rfl := Except.ok.inj hx
      exact h.descend hs hst (placed_withTag hinner (.inl rfl) tag) rfl (by simp [Scope.withTag])
  | drop =>
    cases hst : s.status <;> simp only [Registry.respond, hst] at hx
    case named =>
      obtain rfl := Except.ok.inj hx
      exact h.descend hs hst hinner rfl (by simp [inner])
    all_goals
      obtain rfl := Except.ok.inj hx
      exact h
  | opens construct =>
    cases hst : s.status <;> simp only [Registry.respond, hst, reduceCtorEq] at hx
    case named =>
      obtain rfl := Except.ok.inj hx
      exact h.descend hs hst (placed_awaiting hinner (by simp [inner]) construct) rfl
        (by simp [Scope.awaiting])
    all_goals
      obtain rfl := Except.ok.inj hx
      exact h.alter hs (placed_awaiting hplaced (by simp [hst]) construct) rfl
        (by simp [Scope.awaiting])
  | closes =>
    cases hst : s.status <;> simp only [Registry.respond, hst, reduceCtorEq] at hx
    case named =>
      obtain rfl := Except.ok.inj hx
      cases hp : s.parent with
      | none =>
        have hnew := h.renew hs hst hp
        rw [← size_set r c s.shut] at hnew
        exact hnew
      | some p => exact h.ascend hs hst hp
    case closed => exact absurd hst hopen
  | names text location =>
    cases hst : s.status <;> simp only [Registry.respond, hst] at hx
    case awaitingName =>
      obtain rfl := Except.ok.inj hx
      exact h.alter hs (placed_called hplaced hst text location) rfl (by simp [Scope.called])
    all_goals
      obtain rfl := Except.ok.inj hx
      exact h

end Respond

end Registry

namespace Scan

/-! ## One token -/

/-- The state of a scan is coherent. -/
def Coherent (policy : Policy) (s : Scan) : Prop := s.registry.Coherent policy s.current

/-- At the start the only scope is the current one. -/
theorem start_coherent (policy : Policy) : start.Coherent policy := by
  have hget : start.registry.get? 0 = some { id := 0, arena := some arena } := rfl
  have hone : ∀ i s, start.registry.get? i = some s → i = 0 := by
    intro i s h
    have hlt := Registry.lt_size_of_get? h
    have hsize : start.registry.size = 1 := rfl
    omega
  refine ⟨?_, ⟨_, hget, by simp⟩, ?_, ?_⟩
  · intro i s h
    obtain rfl := hone i s h
    rw [hget] at h
    obtain rfl := Option.some.inj h
    exact ⟨rfl, rfl, by simp, by simp [Scope.Intact], by simp⟩
  · -- It has no parent, so nothing lies around it.
    intro a s ha
    rw [Registry.encloses_iff] at ha
    obtain ⟨p, hp, _⟩ := ha
    cases hp
  · intro i s h hi
    exact absurd (hone i s h) hi

/-- Everything that one token can do to a scan: the current scope takes it, it is passed over, or
    it is an `end` that closes the scope around the current one. -/
theorem feed_cases {o : Options} {t : Token} {s s' : Scan} {notices : List Notice}
    (h : s.Coherent o.settings.policy) (hf : s.feed o t = .ok (s', notices)) :
    ∃ e, s.currentScope? = some e ∧
      ((∃ x, s.registry.respond s.current e (t.role o.settings.accepts) = .ok x ∧
          s' = { s with consumed := s.consumed + 1 }.moved x) ∨
        (∃ fault, s.registry.respond s.current e (t.role o.settings.accepts) = .error fault ∧
          o.settings.policy = .skip ∧
          s' = { s with consumed := s.consumed + 1, skipped := s.skipped + 1 }) ∨
        (∃ p e', o.settings.policy = .skip ∧ t.role o.settings.accepts = .closes ∧
          (e.status = .pending ∨ e.status = .tagged) ∧ e.parent = some p ∧
          s.registry.get? p = some e' ∧ e'.status = .named ∧
          s' = { s with consumed := s.consumed + 1, current := p }.moved
            (s.registry.set p e'.shut, e'.parent))) := by
  obtain ⟨e, he, hopen⟩ := h.current_open
  have hi := (h.arranged _ e he).intact
  refine ⟨e, he, ?_⟩
  -- The count of tokens plays no part in what the token does.
  have he₁ : { s with consumed := s.consumed + 1 }.currentScope? = some e := he
  rw [feed] at hf
  cases hr : s.registry.respond s.current e (t.role o.settings.accepts) with
  | ok x =>
    obtain ⟨_, hd⟩ := dispatch_of_ok he₁ hi hr
    rw [hd] at hf
    exact .inl ⟨x, rfl, (congrArg Prod.fst (Except.ok.inj hf)).symm⟩
  | error fault =>
    cases hp : o.settings.policy with
    | raise =>
      rw [dispatch_of_raise he₁ hi hr hp] at hf
      cases hf
    | skip =>
      have hh := heir?_eq he₁ o t
      by_cases hc : t.role o.settings.accepts = .closes ∧
          (e.status = .pending ∨ e.status = .tagged)
      · rw [if_pos hc] at hh
        cases hpar : e.parent with
        | none =>
          rw [hpar] at hh
          obtain ⟨_, hd⟩ := dispatch_of_skip he₁ hi hr hp hh
          rw [hd] at hf
          exact .inr (.inl ⟨fault, rfl, rfl, (congrArg Prod.fst (Except.ok.inj hf)).symm⟩)
        | some p =>
          rw [hpar] at hh
          obtain ⟨hlt, e', he', hn⟩ := h.parent_named he hpar
          have hi' := (h.arranged p e' he').intact
          -- The parent is named, so it takes the `end`.
          have hr' : s.registry.respond p e' (t.role o.settings.accepts) =
              .ok (s.registry.set p e'.shut, e'.parent) := by
            rw [hc.1]
            simp only [Registry.respond, hn]
          have he₂ : { s with consumed := s.consumed + 1, current := p }.currentScope? = some e' :=
            he'
          obtain ⟨_, hd'⟩ := dispatch_of_ok he₂ hi' hr'
          obtain ⟨_, hd⟩ := dispatch_of_heir he₁ hi hr hp hh hlt hd'
          rw [hd] at hf
          exact .inr (.inr ⟨p, e', rfl, hc.1, hc.2, rfl, he', hn,
            (congrArg Prod.fst (Except.ok.inj hf)).symm⟩)
      · rw [if_neg hc] at hh
        obtain ⟨_, hd⟩ := dispatch_of_skip he₁ hi hr hp hh
        rw [hd] at hf
        exact .inr (.inl ⟨fault, rfl, rfl, (congrArg Prod.fst (Except.ok.inj hf)).symm⟩)

/-- Every token keeps the invariant. -/
theorem feed_coherent {o : Options} {t : Token} {s s' : Scan} {notices : List Notice}
    (h : s.Coherent o.settings.policy) (hf : s.feed o t = .ok (s', notices)) :
    s'.Coherent o.settings.policy := by
  obtain ⟨e, he, ⟨x, hx, rfl⟩ | ⟨fault, _, _, rfl⟩ | ⟨p, e', hp, _, hst, hpar, he', hn, rfl⟩⟩ :=
    feed_cases h hf
  · exact Registry.Coherent.respond h he _ hx
  · exact h
  · -- The `end` is first handed over and then taken.
    rw [Coherent, hp] at h ⊢
    have hy := h.yield he hst hpar
    have hx : s.registry.respond p e' .closes = .ok (s.registry.set p e'.shut, e'.parent) := by
      simp only [Registry.respond, hn]
    exact hy.respond he' _ hx

/-! ## All tokens -/

/-- Every event list keeps the invariant, in every state on the way and in the last one. -/
theorem runFrom_coherent {o : Options} {s : Scan} (h : s.Coherent o.settings.policy)
    (events : List Source.Event) :
    (∀ v ∈ (s.runFrom o events).visits, v.2.Coherent o.settings.policy) ∧
      (s.runFrom o events).final.Coherent o.settings.policy := by
  -- The run goes event by event; only a token that is fed changes the state.
  fun_induction runFrom o s events with
  | case1 s => exact ⟨by simp, h⟩
  | case2 s event events fault hfault => exact ⟨by simp, h⟩
  | case3 s event events hfault htoken run ih => exact ih h
  | case4 s event events hfault t htoken hcancel => exact ⟨by simp, h⟩
  | case5 s event events hfault t htoken hcancel fault hfeed => exact ⟨by simp, h⟩
  | case6 s event events hfault t htoken hcancel next notices hfeed run ih =>
    have hnext := feed_coherent h hfeed
    obtain ⟨hvisits, hfinal⟩ := ih hnext
    refine ⟨?_, hfinal⟩
    intro v hv
    rcases List.mem_cons.mp hv with rfl | hv
    · exact hnext
    · exact hvisits v hv

/-- The states that a scan goes through: the first one, the one after each token that was taken,
    and the one in which it stopped, be it at the end, at a fault or on being cancelled. -/
def states (o : Options) (events : List Source.Event) : List Scan :=
  start :: (run o events).visits.map (·.2) ++ [(run o events).final]

/-- In every state that a scan goes through, whatever the tokens and the settings: ids are places in
    the order, parents come first, exactly the named and the closed scopes have names, the current
    scope is open, all scopes around it are named, and every other scope is closed or, where tokens
    are passed over, was left behind inside of another one before its keyword came.  So a scope that
    awaits its name is the current one, and a named scope is the current one or lies around it. -/
theorem states_coherent (o : Options) (events : List Source.Event) (s : Scan)
    (h : s ∈ states o events) :
    s.Coherent o.settings.policy ∧
      (∀ i e, s.registry.get? i = some e → e.status = .awaitingName → i = s.current) ∧
      (∀ i e, s.registry.get? i = some e → e.status = .named →
        i = s.current ∨ s.registry.Encloses i s.current) := by
  -- The first state, one after a token, or the last.
  have hs : s.Coherent o.settings.policy := by
    obtain ⟨hvisits, hfinal⟩ := runFrom_coherent (start_coherent o.settings.policy) events
    rcases List.mem_append.mp h with h | h
    · rcases List.mem_cons.mp h with rfl | h
      · exact start_coherent _
      · obtain ⟨v, hv, rfl⟩ := List.mem_map.mp h
        exact hvisits v hv
    · obtain rfl := List.mem_singleton.mp h
      exact hfinal
  refine ⟨hs, ?_, ?_⟩
  · intro i e he hst
    by_cases hi : i = s.current
    · exact hi
    by_cases ha : s.registry.Encloses i s.current
    · simp [hs.around_named i e ha he] at hst
    · rcases hs.elsewhere i e he hi ha with hc | ⟨_, hc | hc, _⟩ <;> simp [hc] at hst
  · intro i e he hst
    by_cases hi : i = s.current
    · exact .inl hi
    by_cases ha : s.registry.Encloses i s.current
    · exact .inr ha
    · rcases hs.elsewhere i e he hi ha with hc | ⟨_, hc | hc, _⟩ <;> simp [hc] at hst

/-- A tag that documents nothing: its scope is left behind, and the `end` closes the module. -/
theorem states_coherent_left_behind :
    let o : Options := { settings := { policy := .skip } }
    let events : List Source.Event :=
      [.token (Token.keyword "module" none none ⟨1, 1, none⟩),
        .token (Token.constant "Foo" ⟨1, 8, none⟩),
        .token (Token.comment "# @domain: Billing" ⟨2, 3, none⟩),
        .token (Token.keyword "end" none none ⟨3, 1, none⟩)]
    (run o events).final ∈ states o events ∧
      (run o events).final.registry.scopes.map (·.status) = [.closed, .tagged, .pending] ∧
      (run o events).final.Coherent .skip := by
  intro o events
  have h : (run o events).final ∈ states o events := List.mem_append_right _ (by simp)
  have hst : (run o events).final.registry.scopes.map (·.status) =
      [.closed, .tagged, .pending] := by
    decide +kernel
  exact ⟨h, hst, (states_coherent o events _ h).1⟩

end Scan

end ScopeTags
