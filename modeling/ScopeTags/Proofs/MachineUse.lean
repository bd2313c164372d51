import ScopeTags.Machine.Trigger

/-!
# Machines in use

A machine is declared event by event, and meanwhile any number of hosts join it and trigger its
events.  Whatever is asked of them, in whatever order, a declaration that is refused leaves no rule
behind, a trigger moves one host along a rule of the event or is refused, and an event that was
triggered can be triggered again.

An event is permitted where one of its rules starts or ends, while only the rules that start in a
status say where it leads.  So the event stays permitted: it leads to the end of one of its rules,
or nowhere.

States are compared by `==`, any equivalence, so that a status need not be the very state that was
declared, but is always equal to one.

The operations are carried out in place, so that a fault leaves behind whatever was written before
it.

## Key results

- `Machine.declare_eq_ok_iff`: which declarations are accepted, and what they add
- `Machine.next?_eq_some_iff`: where an event leads
- `Machine.Leads.permits`: it is permitted there again
- `Hosts.InPlace.run_declare`, `Hosts.InPlace.run_trigger`: in place, too, a fault changes nothing
- `Hosts.carryOut_lawful`: what holds after anything that was asked
-/

namespace ScopeTags

namespace Rule

variable {σ : Type}

/-- The states that stand for the rule in a declaration. -/
def spelled (rule : Rule σ) : List σ := [rule.source, rule.target]

/-- The rule starts and ends in one of the states. -/
def Within [BEq σ] (states : List σ) (rule : Rule σ) : Prop :=
  states.contains rule.source = true ∧ states.contains rule.target = true

end Rule

namespace Machine

variable {σ : Type} {m : Machine σ} {event : String} {status target : σ}

/-! ## Rules and events -/

/-- The machine with one more event, whatever its rules. -/
def withEvent (m : Machine σ) (event : String) (rules : List (Rule σ)) : Machine σ :=
  { m with events := m.events ++ [(event, rules)] }

/-- An event has no rules where it was not declared. -/
private theorem lookup_eq_none_iff :
    m.events.lookup event = none ↔ ∀ entry ∈ m.events, entry.1 ≠ event := by
  simp only [List.lookup_eq_none_iff, bne_iff_ne]
  exact forall_congr' fun entry => imp_congr_right fun _ => ne_comm

/-- A new event has the rules that it was declared with. -/
private theorem rules_withEvent_self (h : ∀ entry ∈ m.events, entry.1 ≠ event)
    (rules : List (Rule σ)) : (m.withEvent event rules).rules event = rules := by
  simp [Machine.rules, withEvent, List.lookup_append, lookup_eq_none_iff.mpr h]

/-- The rules of the other events stay. -/
private theorem rules_withEvent_of_ne {other : String} (h : other ≠ event) (rules : List (Rule σ)) :
    (m.withEvent event rules).rules other = m.rules other := by
  have hother : (other == event) = false := by simpa using h
  simp [Machine.rules, withEvent, List.lookup_append, List.lookup_cons, hother]

variable [BEq σ]

/-- What is given declares the rules `read` for a new event: at least one rule, and all of them
    between declared states. -/
structure Accepts (m : Machine σ) (event : String) (given : List (List σ)) (read : List (Rule σ)) :
    Prop where
  new : ∀ entry ∈ m.events, entry.1 ≠ event
  ne : read ≠ []
  given_eq : given = read.map Rule.spelled
  within : ∀ rule ∈ read, rule.Within m.states

/-- What holds of a machine while it is being declared. -/
structure Sound (m : Machine σ) : Prop where
  names_nodup : (m.events.map (·.1)).Nodup
  rules_ne : ∀ entry ∈ m.events, entry.2 ≠ []
  within : ∀ entry ∈ m.events, ∀ rule ∈ entry.2, rule.Within m.states

/-- A declaration that is accepted keeps the machine sound. -/
private theorem Sound.withEvent (h : m.Sound) {given : List (List σ)} {read : List (Rule σ)}
    (hread : m.Accepts event given read) : (m.withEvent event read).Sound := by
  refine ⟨?_, ?_, ?_⟩
  · simpa [Machine.withEvent, List.nodup_append, h.names_nodup] using hread.new
  · intro entry hentry
    rcases List.mem_append.mp hentry with hentry | hentry
    · exact h.rules_ne entry hentry
    · obtain rfl := List.mem_singleton.mp hentry
      exact hread.ne
  · intro entry hentry
    rcases List.mem_append.mp hentry with hentry | hentry
    · exact h.within entry hentry
    · obtain rfl := List.mem_singleton.mp hentry
      exact hread.within

/-- Every rule of an event is between declared states. -/
private theorem Sound.rules_within (h : m.Sound) (event : String) :
    ∀ rule ∈ m.rules event, rule.Within m.states := by
  intro rule hrule
  cases hlookup : m.events.lookup event with
  | none => simp [Machine.rules, hlookup] at hrule
  | some rules =>
    rw [Machine.rules, hlookup, Option.getD_some] at hrule
    -- The rules that are found belong to one of the entries.
    obtain ⟨before, after, hevents, -⟩ := List.lookup_eq_some_iff.mp hlookup
    exact h.within (event, rules) (by simp [hevents]) rule hrule

/-- Where an event leads from a status: along the first rule that starts there, or nowhere if none
    does and one ends there. -/
inductive Leads (m : Machine σ) (event : String) (status : σ) : σ → Prop where
  | along {before after : List (Rule σ)} {rule : Rule σ}
      (rules_eq : m.rules event = before ++ rule :: after)
      (source_eq : (rule.source == status) = true)
      (first : ∀ earlier ∈ before, (earlier.source == status) = false) :
      Leads m event status rule.target
  | nowhere {rule : Rule σ} (mem : rule ∈ m.rules event)
      (target_eq : (rule.target == status) = true)
      (last : ∀ rule ∈ m.rules event, (rule.source == status) = false) : Leads m event status status

/-- An event leads from declared states to declared states. -/
private theorem Leads.contains_states (h : m.Leads event status target) (hm : m.Sound)
    (hstatus : m.states.contains status = true) : m.states.contains target = true := by
  cases h with
  | along hrules hsource hfirst =>
    exact (hm.rules_within event _ (by simp [hrules])).2
  | nowhere => exact hstatus

/-! ## Declarations -/

/-- A rule is accepted if two states are given for it and both are declared. -/
private theorem readRule_eq_ok_iff {given : List σ} {rule : Rule σ} :
    m.readRule event given = .ok rule ↔ given = rule.spelled ∧ rule.Within m.states := by
  unfold readRule
  constructor
  · intro h
    -- Two states, more than two, or fewer.
    split at h
    · split at h
      · cases h
      · next hsource =>
        split at h
        · cases h
        · next htarget =>
          obtain rfl := Except.ok.inj h
          exact ⟨rfl, by simpa using hsource, by simpa using htarget⟩
    · cases h
    · cases h
  · rintro ⟨rfl, hsource, htarget⟩
    simp only [Rule.spelled, hsource, htarget, Bool.not_true, Bool.false_eq_true, if_false]

/-- The rules are read one after the other, and all of them or none are accepted. -/
private theorem mapM_readRule_eq_ok_iff {given : List (List σ)} {read : List (Rule σ)} :
    given.mapM (m.readRule event) = .ok read ↔
      given = read.map Rule.spelled ∧ ∀ rule ∈ read, rule.Within m.states := by
  -- By induction on what is given, as the rules are read from the first one on.
  induction given generalizing read with
  | nil =>
    cases read with
    | nil => simp [pure, Except.pure]
    | cons rule read => simp [pure, Except.pure]
  | cons first given ih =>
    rw [List.mapM_cons]
    constructor
    · intro h
      -- Both the first rule and the others were read.
      cases hrule : m.readRule event first with
      | error flaw =>
        rw [hrule] at h
        cases h
      | ok rule =>
        cases hread : given.mapM (m.readRule event) with
        | error flaw =>
          rw [hrule, hread] at h
          cases h
        | ok read' =>
          rw [hrule, hread] at h
          obtain rfl := Except.ok.inj h
          obtain ⟨rfl, hwithin⟩ := readRule_eq_ok_iff.mp hrule
          obtain ⟨rfl, hall⟩ := ih.mp hread
          exact ⟨rfl, List.forall_mem_cons.mpr ⟨hwithin, hall⟩⟩
    · rintro ⟨hgiven, hall⟩
      cases read with
      | nil => cases hgiven
      | cons rule read =>
        obtain ⟨hfirst, hgiven⟩ := List.cons.inj hgiven
        obtain ⟨hwithin, hall⟩ := List.forall_mem_cons.mp hall
        rw [readRule_eq_ok_iff.mpr ⟨hfirst, hwithin⟩, ih.mpr ⟨hgiven, hall⟩]
        rfl

/-- The declarations that are accepted add their own rules, in order, and nothing else. -/
theorem declare_eq_ok_iff {given : List (List σ)} {m' : Machine σ} :
    m.declare event given = .ok m' ↔
      ∃ read, m.Accepts event given read ∧ m' = m.withEvent event read := by
  rw [declare]
  constructor
  · intro h
    -- The checks in their order: the event is new, something is given, and every rule is accepted.
    split at h
    · cases h
    next hnew =>
    split at h
    · cases h
    next hne =>
    cases hread : given.mapM (m.readRule event) with
    | error flaw =>
      rw [hread] at h
      cases h
    | ok read =>
      rw [hread] at h
      obtain rfl := Except.ok.inj h
      obtain ⟨rfl, hwithin⟩ := mapM_readRule_eq_ok_iff.mp hread
      have hnone := Option.not_isSome_iff_eq_none.mp hnew
      refine ⟨read, ⟨lookup_eq_none_iff.mp hnone, ?_, rfl, hwithin⟩, rfl⟩
      rintro rfl
      exact hne rfl
  · rintro ⟨read, ⟨hnew, hne, rfl, hwithin⟩, rfl⟩
    have hread : (read.map Rule.spelled).mapM (m.readRule event) = .ok read :=
      mapM_readRule_eq_ok_iff.mpr ⟨rfl, hwithin⟩
    have hempty : ¬(read.map Rule.spelled).isEmpty = true := by simpa using hne
    rw [if_neg (by simp [lookup_eq_none_iff.mpr hnew]), if_neg hempty, hread]
    rfl

/-! ## Triggers -/

/-- An event is permitted where one of its rules starts or ends. -/
private theorem permits_iff :
    m.permits event status = true ↔
      ∃ rule ∈ m.rules event, (rule.source == status) = true ∨ (rule.target == status) = true := by
  simp [Machine.permits]

/-- Where an event leads is told by the first rule that starts there. -/
theorem next?_eq_some_iff :
    m.next? event status = some target ↔ m.Leads event status target := by
  rw [next?]
  constructor
  · intro h
    split at h
    · next hpermits =>
      split at h
      · next rule hfind =>
        obtain rfl := Option.some.inj h
        obtain ⟨hsource, before, after, hrules, hfirst⟩ := List.find?_eq_some_iff_append.mp hfind
        exact .along hrules hsource (by simpa using hfirst)
      · next hfind =>
        obtain rfl := Option.some.inj h
        have hlast : ∀ rule ∈ m.rules event, (rule.source == status) = false := by
          simpa using hfind
        -- What permits the event is then the end of a rule.
        obtain ⟨rule, hmem, hsource | htarget⟩ := permits_iff.mp hpermits
        · exact absurd hsource (by simp [hlast rule hmem])
        · exact .nowhere hmem htarget hlast
    · cases h
  · -- The other way, each of the two forms is found again by the search.
    intro h
    cases h with
    | @along before after rule hrules hsource hfirst =>
      have hpermits : m.permits event status = true :=
        permits_iff.mpr ⟨rule, by simp [hrules], .inl hsource⟩
      have hfind : (m.rules event).find? (fun rule => rule.source == status) = some rule :=
        List.find?_eq_some_iff_append.mpr ⟨hsource, before, after, hrules, by simpa using hfirst⟩
      rw [if_pos hpermits, hfind]
    | @nowhere rule hmem htarget hlast =>
      have hpermits : m.permits event status = true := permits_iff.mpr ⟨rule, hmem, .inr htarget⟩
      have hfind : (m.rules event).find? (fun rule => rule.source == status) = none := by
        simpa using hlast
      rw [if_pos hpermits, hfind]

/-- An event is permitted just where it leads somewhere, be it nowhere else. -/
private theorem permits_iff_leads :
    m.permits event status = true ↔ ∃ target, m.Leads event status target := by
  rw [← Bool.not_eq_false, ← next?_eq_none_iff, ← Ne, Option.ne_none_iff_exists']
  simp only [next?_eq_some_iff]

/-- An event leads to the end of one of its rules, or stays at one, so it is permitted again. -/
theorem Leads.permits [EquivBEq σ] (h : m.Leads event status target) :
    m.permits event target = true := by
  -- The end of the rule along which it has led, or the one where it has stayed.
  cases h with
  | @along before after rule hrules hsource hfirst =>
    exact permits_iff.mpr ⟨rule, by simp [hrules], .inr BEq.rfl⟩
  | @nowhere rule hmem htarget hlast => exact permits_iff.mpr ⟨rule, hmem, .inr htarget⟩

/-- What is permitted in a state is permitted in every state equal to it. -/
private theorem permits_congr [EquivBEq σ] {status' : σ} (h : (status == status') = true)
    (hpermits : m.permits event status = true) : m.permits event status' = true := by
  obtain ⟨rule, hmem, heq⟩ := permits_iff.mp hpermits
  exact permits_iff.mpr ⟨rule, hmem, heq.imp (BEq.trans · h) (BEq.trans · h)⟩

end Machine

namespace Hosts

/-! ## Operations in place -/

/-- Steps that write to hosts and to their machine.  What is written stays, whether or not a fault
    comes after it. -/
abbrev InPlace (σ : Type) := EStateM Fault (Hosts σ)

namespace InPlace

variable {σ : Type}

/-- The status of host `i` as it is now. -/
def status (i : Nat) : InPlace σ σ := do
  match (← get).statuses[i]? with
  | some status => return status
  | none => throw .outOfRange

/-- The status of a host is read and nothing is written. -/
private theorem run_status {i : Nat} {h : Hosts σ} {former : σ}
    (hi : h.statuses[i]? = some former) : (status i).run h = .ok former h := by
  rw [status, EStateM.run_bind, EStateM.run_get]
  simp only [hi]
  rfl

variable [BEq σ] [Shown σ]

/-- What was read, unless there is a flaw in it. -/
def accept {α : Type} : Except (Machine.Flaw σ) α → InPlace σ α
  | .ok a => return a
  | .error flaw => throw (.flawed (flaw.map Shown.scalar))

/-- Declare an event.  The rules are read one after the other before they are written down. -/
def declare (event : String) (given : List (List σ)) : InPlace σ Unit := do
  let m := (← get).machine
  if (m.events.lookup event).isSome then throw (.flawed (.eventDeclared event))
  else if given.isEmpty then throw (.flawed (.noRules event))
  else do
    let rules ← given.mapM fun states => accept (m.readRule event states)
    modify fun h => { h with machine := h.machine.withEvent event rules }

/-- Trigger an event on host `i`, which yields its status after that. -/
def trigger (i : Nat) (event : String) : InPlace σ σ := do
  let former ← status i
  match (← get).machine.next event former with
  | .error fault => throw fault
  | .ok target => do
    unless target == former do modify fun h => { h with statuses := h.statuses.set i target }
    status i

/-- The rules are read without a write, up to the first flaw. -/
private theorem run_mapM_accept {m : Machine σ} {event : String} (given : List (List σ))
    (h : Hosts σ) : (given.mapM fun states => accept (m.readRule event states)).run h =
      match given.mapM (m.readRule event) with
      | .ok rules => .ok rules h
      | .error flaw => .error (.flawed (flaw.map Shown.scalar)) h := by
  induction given with
  | nil => rfl
  | cons states given ih =>
    rw [List.mapM_cons, List.mapM_cons, EStateM.run_bind]
    cases m.readRule event states with
    | error flaw => rfl
    | ok rule =>
      change EStateM.run (_ >>= _) h = _
      rw [EStateM.run_bind, ih]
      cases given.mapM (m.readRule event) <;> rfl

/-- A declaration in place does what the declaration does, and a flaw leaves all as it was. -/
theorem run_declare (event : String) (given : List (List σ)) (h : Hosts σ) :
    (declare event given).run h =
      match h.declare event given with
      | .ok h' => .ok () h'
      | .error flaw => .error (.flawed (flaw.map Shown.scalar)) h := by
  rw [declare, EStateM.run_bind, EStateM.run_get, Hosts.declare, Machine.declare]
  dsimp only
  -- The two checks that come before the rules write nothing either.
  split
  · rfl
  split
  · rfl
  rw [EStateM.run_bind, run_mapM_accept]
  cases given.mapM (h.machine.readRule event) <;> rfl

/-- A trigger in place does what the trigger does, and a fault leaves all as it was. -/
theorem run_trigger (i : Nat) (event : String) (h : Hosts σ) :
    (trigger i event).run h =
      match h.trigger i event with
      | .ok (reached, h', _) => .ok reached h'
      | .error fault => .error fault h := by
  rw [Hosts.trigger]
  cases hi : h.statuses[i]? with
  | none =>
    rw [trigger, status, EStateM.run_bind, EStateM.run_bind, EStateM.run_get]
    simp only [hi]
    rfl
  | some former =>
    rw [trigger, EStateM.run_bind, run_status hi]
    dsimp only
    rw [EStateM.run_bind, EStateM.run_get]
    dsimp only
    cases h.machine.next event former with
    | error fault => rfl
    | ok target =>
      have hlt : i < h.statuses.length := (List.getElem?_eq_some_iff.mp hi).1
      -- The status after the trigger is read again, whether or not it was written.
      cases htarget : target == former with
      | true =>
        simp only [htarget, move, if_true]
        exact run_status hi
      | false =>
        have hset : (h.statuses.set i target)[i]? = some target := List.getElem?_set_self hlt
        simp only [htarget, move, Bool.false_eq_true, if_false]
        exact run_status hset

end InPlace

/-! ## Anything that can be asked -/

/-- What can be asked of hosts and their machine. -/
inductive Call (σ : Type) where
  | declare (event : String) (given : List (List σ))
  | join
  | trigger (host : Nat) (event : String)
deriving DecidableEq, Repr

/-- The hosts after steps in place, whether or not they failed. -/
def after {σ α : Type} (h : Hosts σ) (x : InPlace σ α) : Hosts σ :=
  match x.run h with
  | .ok _ h' => h'
  | .error _ h' => h'

section Calls

variable {σ : Type} [BEq σ] [Shown σ]

/-- Do in place what is asked. -/
def Call.inPlace : Call σ → InPlace σ Unit
  | .declare event given => InPlace.declare event given
  | .join => modify Hosts.join
  | .trigger host event => do
    let _ ← InPlace.trigger host event

/-- Do one thing after the other.  One that fails is no reason to stop. -/
def carryOut (h : Hosts σ) : List (Call σ) → Hosts σ
  | [] => h
  | call :: calls => (h.after call.inPlace).carryOut calls

end Calls

section Changes

variable {σ : Type} [BEq σ]

/-- Everything that one call can do. -/
inductive Changes (h : Hosts σ) : Hosts σ → Prop where
  | nothing : Changes h h
  | declares {event : String} {given : List (List σ)} {read : List (Rule σ)}
      (accepts : h.machine.Accepts event given read) :
      Changes h { h with machine := h.machine.withEvent event read }
  | joins : Changes h h.join
  | moves {i : Nat} {former target : σ} {event : String}
      (status : h.statuses[i]? = some former) (leads : h.machine.Leads event former target) :
      Changes h (h.move i former target)

variable {h : Hosts σ} {i : Nat} {former target : σ} {event : String}

/-- A declaration that is accepted. -/
private theorem declare_of_accepts {given : List (List σ)} {read : List (Rule σ)}
    (hread : h.machine.Accepts event given read) :
    h.declare event given = .ok { h with machine := h.machine.withEvent event read } := by
  rw [Hosts.declare, Machine.declare_eq_ok_iff.mpr ⟨read, hread, rfl⟩]
  rfl

/-- A declaration that is not accepted ends with a flaw. -/
private theorem declare_of_not_accepts {given : List (List σ)}
    (hread : ¬∃ read, h.machine.Accepts event given read) :
    ∃ flaw, h.declare event given = .error flaw := by
  cases hx : h.machine.declare event given with
  | error flaw => exact ⟨flaw, by rw [Hosts.declare, hx]; rfl⟩
  | ok m =>
    obtain ⟨read, haccepts, -⟩ := Machine.declare_eq_ok_iff.mp hx
    exact absurd ⟨read, haccepts⟩ hread

/-- A move does not change the machine. -/
private theorem machine_move (h : Hosts σ) (i : Nat) (former target : σ) :
    (h.move i former target).machine = h.machine := by
  unfold move
  split <;> rfl

/-- No other host moves. -/
private theorem statuses_move_of_ne {j : Nat} (hj : j ≠ i) :
    (h.move i former target).statuses[j]? = h.statuses[j]? := by
  unfold move
  split
  · rfl
  · exact List.getElem?_set_ne hj.symm

/-- The host has the new status, or the one that it had and that is equal to it. -/
private theorem statuses_move_self (hi : h.statuses[i]? = some former) :
    (h.move i former target).statuses[i]? =
      some (if target == former then former else target) := by
  have hlt : i < h.statuses.length := (List.getElem?_eq_some_iff.mp hi).1
  unfold move
  split
  · exact hi
  · exact List.getElem?_set_self hlt

/-- Every status after a move was there before it or is the new one. -/
private theorem mem_statuses_move {status : σ} (hs : status ∈ (h.move i former target).statuses) :
    status ∈ h.statuses ∨ status = target := by
  unfold move at hs
  split at hs
  · exact .inl hs
  · exact List.mem_or_eq_of_mem_set hs

/-- Where an event has led, it is permitted again. -/
private theorem permits_move [EquivBEq σ] (hi : h.statuses[i]? = some former)
    (hleads : h.machine.Leads event former target) :
    ∃ reached, (h.move i former target).statuses[i]? = some reached ∧
      (h.move i former target).machine.permits event reached = true := by
  refine ⟨_, statuses_move_self hi, ?_⟩
  rw [machine_move]
  cases htarget : target == former with
  | true => exact Machine.permits_congr htarget hleads.permits
  | false => exact hleads.permits

section Triggers

variable [Shown σ]

/-- A trigger that leads somewhere. -/
private theorem trigger_of_leads (hi : h.statuses[i]? = some former)
    (hleads : h.machine.Leads event former target) :
    ∃ notices, h.trigger i event =
      .ok (if target == former then former else target, h.move i former target, notices) := by
  have hnext : h.machine.next event former = .ok target := by
    rw [Machine.next, Machine.next?_eq_some_iff.mpr hleads]
  simp only [trigger, hi, hnext]
  exact ⟨_, rfl⟩

/-- A trigger that is not permitted. -/
private theorem trigger_of_not_permits (hi : h.statuses[i]? = some former)
    (hpermits : h.machine.permits event former = false) :
    h.trigger i event = .error (.illegalTransition event (Shown.scalar former) {}) := by
  have hnext : h.machine.next event former =
      .error (.illegalTransition event (Shown.scalar former) {}) := by
    rw [Machine.next, Machine.next?_eq_none_iff.mpr hpermits]
  simp only [trigger, hi, hnext]

/-- A trigger on a host that there is not. -/
private theorem trigger_of_none (hi : h.statuses[i]? = none) (event : String) :
    h.trigger i event = .error .outOfRange := by
  simp only [trigger, hi]

/-- A call does one of these things, refused or not. -/
theorem changes_after (h : Hosts σ) (call : Call σ) : h.Changes (h.after call.inPlace) := by
  cases call with
  | declare event given =>
    rw [after, Call.inPlace, InPlace.run_declare]
    -- A declaration is accepted or leaves all as it was.
    by_cases hread : ∃ read, h.machine.Accepts event given read
    · obtain ⟨read, haccepts⟩ := hread
      rw [declare_of_accepts haccepts]
      exact .declares haccepts
    · obtain ⟨flaw, hx⟩ := declare_of_not_accepts hread
      rw [hx]
      exact .nothing
  | join => exact .joins
  | trigger i event =>
    rw [after, Call.inPlace, EStateM.run_bind, InPlace.run_trigger]
    cases hi : h.statuses[i]? with
    | none =>
      rw [trigger_of_none hi]
      exact .nothing
    | some former =>
      -- A trigger moves its host or leaves all as it was.
      cases hpermits : h.machine.permits event former with
      | false =>
        rw [trigger_of_not_permits hi hpermits]
        exact .nothing
      | true =>
        obtain ⟨target, hleads⟩ := Machine.permits_iff_leads.mp hpermits
        obtain ⟨notices, hx⟩ := trigger_of_leads hi hleads
        rw [hx]
        exact .moves hi hleads

end Triggers

/-! ## What holds at any time -/

/-- What holds of hosts and their machine, whatever was asked of them. -/
structure Sound (states : List σ) (h : Hosts σ) : Prop where
  states_eq : h.machine.states = states
  machine : h.machine.Sound
  statuses : ∀ status ∈ h.statuses, states.contains status = true

variable {states : List σ}

/-- Each of them keeps hosts and machine sound. -/
theorem Changes.sound [EquivBEq σ] {h' : Hosts σ} (hc : h.Changes h') (hs : h.Sound states) :
    h'.Sound states := by
  cases hc with
  | nothing => exact hs
  | declares haccepts => exact ⟨hs.states_eq, hs.machine.withEvent haccepts, hs.statuses⟩
  | joins =>
    have hinitial : states.contains h.machine.initial = true := by
      rw [← hs.states_eq]
      exact List.contains_iff_exists_mem_beq.mpr ⟨_, List.mem_cons_self, BEq.rfl⟩
    refine ⟨hs.states_eq, hs.machine, fun status hstatus => ?_⟩
    rcases List.mem_append.mp hstatus with hstatus | hstatus
    · exact hs.statuses status hstatus
    · obtain rfl := List.mem_singleton.mp hstatus
      exact hinitial
  | @moves i former target event hi hleads =>
    have hmachine := h.machine_move i former target
    refine ⟨by rw [hmachine, hs.states_eq], hmachine ▸ hs.machine, fun status hstatus => ?_⟩
    rcases mem_statuses_move hstatus with hstatus | rfl
    · exact hs.statuses status hstatus
    · -- The rules of the event lead to declared states only.
      have hformer := hs.statuses former (List.mem_of_getElem? hi)
      rw [← hs.states_eq] at hformer ⊢
      exact hleads.contains_states hs.machine hformer

/-- Hosts are sound before anything is declared. -/
private theorem sound_ofMachine [EquivBEq σ] {m : Machine σ}
    (hm : Machine.ofStates states = .ok m) : (ofMachine m).Sound states := by
  cases states with
  | nil => cases hm
  | cons initial others =>
    rw [Machine.ofStates] at hm
    split at hm
    · obtain rfl := Except.ok.inj hm
      exact ⟨rfl, ⟨.nil, nofun, nofun⟩, by simp [ofMachine]⟩
    · cases hm

end Changes

section Runs

variable {σ : Type} [BEq σ] [EquivBEq σ] [Shown σ] {h : Hosts σ} {i : Nat} {former : σ}
  {event : String}

/-- Hosts are sound after any calls. -/
private theorem sound_carryOut {states : List σ} (hs : h.Sound states) (calls : List (Call σ)) :
    (h.carryOut calls).Sound states := by
  -- By induction on the calls, each of which keeps what the next one starts from.
  induction calls generalizing h with
  | nil => exact hs
  | cons call calls ih => exact ih ((h.changes_after call).sound hs)

/-- A trigger that is permitted is permitted again after any number of triggers of the same
    event. -/
private theorem permits_carryOut_replicate (hi : h.statuses[i]? = some former)
    (hpermits : h.machine.permits event former = true) (n : Nat) :
    let later := h.carryOut (List.replicate n (.trigger i event))
    ∃ status, later.statuses[i]? = some status ∧ later.machine.permits event status = true := by
  -- By induction on the number of triggers; each one leads to a status where the event is
  -- permitted.
  induction n generalizing h former with
  | zero => exact ⟨former, hi, hpermits⟩
  | succ n ih =>
    obtain ⟨target, hleads⟩ := Machine.permits_iff_leads.mp hpermits
    obtain ⟨notices, hx⟩ := trigger_of_leads hi hleads
    have hafter : h.after (Call.trigger i event).inPlace = h.move i former target := by
      rw [after, Call.inPlace, EStateM.run_bind, InPlace.run_trigger, hx]
      rfl
    obtain ⟨reached, hreached, hagain⟩ := permits_move hi hleads
    rw [List.replicate_succ, carryOut, hafter]
    exact ih hreached hagain

end Runs

/-- Whatever was asked of a machine and its hosts, refusals included, and whatever its states are:
    they need an equality that is an equivalence.  The states are those given at the start, every
    event has a rule, every rule and every status is among the states.

    A declaration that is accepted adds its rules in order and nothing else, and any other one is
    refused and leaves machine and hosts as they are.

    A trigger that is not permitted is refused, which leaves all hosts as they are.  One that is
    permitted moves its host along the first rule of the event that starts in the host's status, or
    nowhere if none does, and no other host; a host whose status is equal to the end of the rule
    keeps its status.  After that the same event can be triggered on that host any number of
    times. -/
theorem carryOut_lawful {σ : Type} [BEq σ] [EquivBEq σ] [Shown σ] (states : List σ)
    (hne : states ≠ []) (hdistinct : Machine.Distinct states) (done : List (Call σ)) :
    ∃ m, Machine.ofStates states = .ok m ∧
      let h : Hosts σ := (ofMachine m).carryOut done
      h.machine.states = states ∧
      (∀ entry ∈ h.machine.events, entry.2 ≠ [] ∧ ∀ rule ∈ entry.2,
        states.contains rule.source = true ∧ states.contains rule.target = true) ∧
      (∀ status ∈ h.statuses, states.contains status = true) ∧
      (∀ event given read, h.machine.Accepts event given read →
        let h' : Hosts σ := { h with machine := h.machine.withEvent event read }
        (InPlace.declare event given).run h = .ok () h' ∧ h.declare event given = .ok h' ∧
          h'.machine.rules event = read ∧
          ∀ other, other ≠ event → h'.machine.rules other = h.machine.rules other) ∧
      (∀ event given, (¬∃ read, h.machine.Accepts event given read) →
        ∃ flaw, (InPlace.declare event given).run h = .error (.flawed (flaw.map Shown.scalar)) h ∧
          h.declare event given = .error flaw) ∧
      ∀ i former, h.statuses[i]? = some former → ∀ event,
        (h.machine.permits event former = false →
          let fault : Fault := .illegalTransition event (Shown.scalar former) {}
          (InPlace.trigger i event).run h = .error fault h ∧ h.trigger i event = .error fault) ∧
        (h.machine.permits event former = true →
          ∃ target reached h' notices, (InPlace.trigger i event).run h = .ok reached h' ∧
            h.trigger i event = .ok (reached, h', notices) ∧
            h.machine.Leads event former target ∧
            (if target == former then reached = former ∧ h' = h else reached = target) ∧
            h'.machine = h.machine ∧ h'.statuses[i]? = some reached ∧
            (∀ j, j ≠ i → h'.statuses[j]? = h.statuses[j]?) ∧
            ∀ n, ∃ reached' h'', (InPlace.trigger i event).run
              (h'.carryOut (List.replicate n (.trigger i event))) = .ok reached' h'') := by
  -- There is a machine to start from, since the states are distinct and there is one.
  obtain ⟨m, hm⟩ : ∃ m, Machine.ofStates states = .ok m := by
    cases states with
    | nil => exact absurd rfl hne
    | cons initial others => exact ⟨_, if_pos hdistinct⟩
  refine ⟨m, hm, ?_⟩
  intro h
  have hs : h.Sound states := sound_carryOut (sound_ofMachine hm) done
  -- What is left: rules, declarations accepted and refused, triggers refused and permitted.
  refine ⟨hs.states_eq, fun entry hentry => ⟨hs.machine.rules_ne entry hentry, ?_⟩, hs.statuses,
    fun event given read hread => ?_, fun event given hread => ?_, fun i former hi event =>
    ⟨fun hpermits => ?_, fun hpermits => ?_⟩⟩
  · rw [← hs.states_eq]
    exact hs.machine.within entry hentry
  · have hx := declare_of_accepts hread
    exact ⟨by rw [InPlace.run_declare, hx], hx, Machine.rules_withEvent_self hread.new read,
      fun other hother => Machine.rules_withEvent_of_ne hother read⟩
  · obtain ⟨flaw, hx⟩ := declare_of_not_accepts hread
    exact ⟨flaw, by rw [InPlace.run_declare, hx], hx⟩
  · have hx := trigger_of_not_permits hi hpermits
    exact ⟨by rw [InPlace.run_trigger, hx], hx⟩
  · obtain ⟨target, hleads⟩ := Machine.permits_iff_leads.mp hpermits
    obtain ⟨notices, hx⟩ := trigger_of_leads hi hleads
    refine ⟨target, _, _, notices, by rw [InPlace.run_trigger, hx], hx, hleads, ?_,
      h.machine_move i former target, statuses_move_self hi, fun j hj => statuses_move_of_ne hj,
      fun n => ?_⟩
    · cases htarget : target == former with
      | true => simp [move, htarget]
      | false => simp
    · -- After any number of further triggers the event is permitted, so the next one succeeds.
      obtain ⟨reached, hreached, hagain⟩ := permits_move hi hleads
      obtain ⟨status, hstatus, hpermits'⟩ := permits_carryOut_replicate hreached hagain n
      obtain ⟨target', hleads'⟩ := Machine.permits_iff_leads.mp hpermits'
      obtain ⟨notices', hx'⟩ := trigger_of_leads hstatus hleads'
      exact ⟨_, _, by rw [InPlace.run_trigger, hx']⟩

/-- Two hosts of a machine some of whose declarations and triggers are refused.  The states are
    numbers and a text, and the rules name the numbers by flags.  Of the two rules that start at
    zero the first one counts, and from one the event leads back. -/
theorem carryOut_lawful_switch :
    let states : List Scalar := [.number 0, .number 1, .text "broken"]
    let done : List (Call Scalar) :=
      [.declare "flip" [[.flag false, .flag true], [.number 0, .text "broken"],
          [.number 1, .number 0]],
        .declare "flip" [[.number 0, .number 0]], .declare "mend" [[.text "broken", .number 2]],
        .join, .trigger 1 "flip", .trigger 0 "mend"]
    states ≠ [] ∧ Machine.Distinct states ∧
      ∃ m, Machine.ofStates states = .ok m ∧
        let h : Hosts Scalar := (ofMachine m).carryOut done
        h.statuses = [.number 0, .flag true] ∧ h.machine.events.length = 1 ∧
          ∃ h', (InPlace.trigger 1 "flip").run h = .ok (.number 0) h' ∧
            h'.statuses[0]? = some (.number 0) ∧
            ∀ n, ∃ reached' h'', (InPlace.trigger 1 "flip").run
              (h'.carryOut (List.replicate n (.trigger 1 "flip"))) = .ok reached' h'' := by
  intro states done
  have hne : states ≠ [] := by decide
  have hdistinct : Machine.Distinct states := by decide
  obtain ⟨m, hm, -, -, -, -, -, htrigger⟩ := carryOut_lawful states hne hdistinct done
  obtain rfl := Except.ok.inj hm
  refine ⟨hne, hdistinct, _, rfl, by decide, by decide, ?_⟩
  obtain ⟨-, hok⟩ := htrigger 1 (.flag true) (by decide) "flip"
  obtain ⟨target, reached, h', notices, hrun, -, -, -, -, -, hothers, hagain⟩ := hok (by decide)
  obtain rfl : reached = .number 0 := (EStateM.Result.ok.inj hrun).1.symm
  exact ⟨h', hrun, (hothers 0 (by decide)).trans (by decide), hagain⟩

end Hosts

end ScopeTags
