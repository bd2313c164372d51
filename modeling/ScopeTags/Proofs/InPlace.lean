import ScopeTags.Proofs.Reaction
import ScopeTags.Workbench

/-!
# Operations in place

`Operation.perform` yields another registry or a fault, so that nothing is left of an operation that
fails.  Here the operations are carried out in place: one write comes after the other, a new scope
is in the registry as soon as it is made, and a fault leaves behind what was written before it.
There never is any such thing: an event that is not permitted is refused before the first write.

## Key results

- `InPlace.run_tag`, `InPlace.run_awaitName`, `InPlace.run_assignName`, `InPlace.run_close`: the
  operations on one scope
- `Operation.run_inPlace`: every operation has the outcome of `Operation.perform`, and a fault
  leaves the registry as it was
-/

namespace ScopeTags

/-- Steps that write to a registry.  What is written stays, whether or not a fault comes after
    it. -/
abbrev InPlace := EStateM Fault Registry

namespace InPlace

/-- Scope `i` as it is now. -/
def scope (i : Nat) : InPlace Scope := do
  match (← get).get? i with
  | some s => return s
  | none => throw .outOfRange

/-- Change scope `i`. -/
def write (i : Nat) (change : Scope → Scope) : InPlace Unit := do
  let s ← scope i
  modify (·.set i (change s))

/-- Set a field of scope `i`, which a frozen scope does not permit. -/
def setField (i : Nat) (key : String) (change : Scope → Scope) : InPlace Unit := do
  let s ← scope i
  if s.frozen then throw (s.protest ("set " ++ key)) else write i change

/-- Set a field of scope `i` if a value is given. -/
def setGiven {α : Type} (i : Nat) (key : String) (change : α → Scope → Scope) :
    Option α → InPlace Unit
  | none => return ()
  | some value => setField i key (change value)

/-- Trigger an event on scope `i`. -/
def trigger (i : Nat) (event : String) : InPlace Unit := do
  let s ← scope i
  match lifecycle.next? event s.status with
  | none => throw (s.refuse event)
  | some target =>
    if target = s.status then return ()
    else setField i "status" fun s => { s with status := target }

/-- Add a tag to scope `i`. -/
def tag (i : Nat) (added : Tag) : InPlace Unit := do
  trigger i "tag"
  write i fun s => { s with tags := s.tags.insert added }

/-- Let scope `i` wait for its name. -/
def awaitName (i : Nat) (construct : Option Construct) : InPlace Unit := do
  trigger i "await_name"
  setGiven i "_type" (fun construct s => { s with construct := some construct }) construct

/-- Write down the name of scope `i`, and where it was given if that is known. -/
def setName (i : Nat) (given : String) (location : Option Location) : InPlace Unit := do
  setField i "_name" fun s => { s with name := some given }
  setGiven i "_location" (fun location s => { s with location }) location

/-- Give scope `i` its name. -/
def assignName (i : Nat) (given : String) (location : Option Location) : InPlace Unit := do
  let s ← scope i
  if s.status ≠ .awaitingName then throw (s.refuse "name")
  else do
    trigger i "name"
    setName i given location

/-- Close scope `i` and freeze it, unless it is frozen. -/
def close (i : Nat) : InPlace Unit := do
  let s ← scope i
  if s.frozen then return ()
  else do
    trigger i "close"
    setField i "_frozen" fun s => { s with frozen := true }

/-- Make a scope. -/
def enroll (parent : Option Nat) (arena : Option String) : InPlace Nat := do
  let r ← get
  set (r.enroll parent arena)
  return r.size

/-- The scope for which what follows is meant while scope `i` is current: a named one opens a scope
    inside of it. -/
def receiverAt (i : Nat) : InPlace Nat := do
  if ((← get).get? i).any (·.status = .named) then enroll (some i) none else return i

/-- React to a comment while scope `i` is current. -/
def onComment (i : Nat) (accepts : String → Bool) (t : Token) : InPlace (Option Nat) := do
  if t.isTagComment then
    let receiver ← receiverAt i
    if accepts t.tag.name then
      tag receiver t.tag
      return some receiver
    else return some receiver
  else return some i

/-- React to a keyword while scope `i` is current. -/
def onKeyword (i : Nat) (t : Token) : InPlace (Option Nat) := do
  match t.keywordClass with
  | some .newScope =>
    let receiver ← receiverAt i
    awaitName receiver t.construct
    return some receiver
  | some .scopeEnd =>
    close i
    return (← scope i).parent
  | _ => return some i

/-- React to a possible name while scope `i` is current. -/
def onName (i : Nat) (t : Token) : InPlace (Option Nat) := do
  if t.text ∉ ignoredNames ∧ ((← get).get? i).any (·.status = .awaitingName) then
    assignName i t.text (some t.location)
    return some i
  else return some i

/-! ## One scope -/

/-- What steps come to that yield another registry and a value, or a fault while the registry stays
    `r`. -/
def settled {α : Type} (r : Registry) :
    Except Fault (Registry × α) → EStateM.Result Fault Registry α
  | .ok (r', a) => .ok a r'
  | .error fault => .error fault r

/-- What they come to where scope `i` becomes another one. -/
def reset (r : Registry) (i : Nat) (s : Except Fault Scope) : EStateM.Result Fault Registry Unit :=
  settled r (s.map fun s => (r.set i s, ()))

section Bind

variable {α β : Type} {x : InPlace α} {r r' : Registry}

/-- Steps go on from what those before them left. -/
theorem run_bind_of_ok {a : α} (h : x.run r = .ok a r') (f : α → InPlace β) :
    (x >>= f).run r = (f a).run r' := by
  simp only [EStateM.run, bind, EStateM.bind] at h ⊢
  rw [h]

/-- A fault ends the steps, and what was written before it stays. -/
theorem run_bind_of_error {fault : Fault} (h : x.run r = .error fault r') (f : α → InPlace β) :
    (x >>= f).run r = .error fault r' := by
  simp only [EStateM.run, bind, EStateM.bind] at h ⊢
  rw [h]

theorem run_get_bind (f : Registry → InPlace β) (r : Registry) :
    ((get : InPlace Registry) >>= f).run r = (f r).run r := rfl

end Bind

/-- An event neither freezes a scope nor moves it. -/
private theorem unchanged_of_trigger {s s' : Scope} {event : String}
    (h : s.trigger event = .ok s') : s'.frozen = s.frozen ∧ s'.parent = s.parent := by
  rw [Scope.trigger] at h
  split at h
  · cases h
  · split at h
    · obtain rfl := Except.ok.inj h
      exact ⟨rfl, rfl⟩
    · rw [Scope.setStatus] at h
      split at h
      · cases h
      · obtain rfl := Except.ok.inj h
        exact ⟨rfl, rfl⟩

/-- To close a scope does not move it. -/
private theorem parent_eq_of_close {s s' : Scope} (h : s.close = .ok s') :
    s'.parent = s.parent := by
  rw [Scope.close] at h
  split at h
  · obtain rfl := Except.ok.inj h
    rfl
  · cases ht : s.trigger "close" with
    | error fault =>
      rw [ht] at h
      cases h
    | ok closing =>
      rw [ht] at h
      obtain rfl := Except.ok.inj h
      exact (unchanged_of_trigger ht).2

/-- A frozen scope permits no event that a closed one does not. -/
private theorem frozen_of_trigger {s s' : Scope} {event : String} (hi : s.Intact)
    (hevent : lifecycle.next? event .closed = none) (h : s.trigger event = .ok s') :
    s'.frozen = false := by
  rw [(unchanged_of_trigger h).1, ← Bool.not_eq_true]
  intro hf
  rw [Scope.trigger, hi.mp hf, hevent] at h
  cases h

section Scope

variable {r : Registry} {i : Nat} {s : Scope} (h : r.get? i = some s)

include h

/-- To look at a scope writes nothing. -/
theorem run_scope : (scope i).run r = .ok s r := by
  rw [scope, run_get_bind, h]
  rfl

theorem run_write (change : Scope → Scope) :
    (write i change).run r = .ok () (r.set i (change s)) := by
  rw [write, run_bind_of_ok (run_scope h)]
  rfl

/-- A field of a scope that is not frozen can be set. -/
theorem run_setField (hf : s.frozen = false) (key : String) (change : Scope → Scope) :
    (setField i key change).run r = .ok () (r.set i (change s)) := by
  rw [setField, run_bind_of_ok (run_scope h), hf]
  exact run_write h change

/-- A field whose value may be missing can be set; without a value nothing is written. -/
theorem run_setGiven {α : Type} (hf : s.frozen = false) (key : String)
    (change : α → Scope → Scope) (given : Option α) :
    (setGiven i key change given).run r = .ok () (r.set i (given.elim s (change · s))) := by
  cases given with
  | none =>
    rw [Option.elim_none, Registry.set_get? h]
    rfl
  | some value => exact run_setField h hf key (change value)

/-- An event that is refused writes nothing; one that is permitted writes the status. -/
theorem run_trigger (event : String) :
    (trigger i event).run r = reset r i (s.trigger event) := by
  rw [trigger, run_bind_of_ok (run_scope h), Scope.trigger]
  cases lifecycle.next? event s.status with
  | none => rfl
  | some target =>
    dsimp only
    split
    -- The status is the one that it was, so nothing is written.
    · exact congrArg (EStateM.Result.ok ()) (Registry.set_get? h).symm
    · cases hf : s.frozen with
      | true =>
        rw [setField, run_bind_of_ok (run_scope h), Scope.setStatus, hf]
        rfl
      | false =>
        rw [run_setField h hf, Scope.setStatus, hf]
        rfl

/-- What is written once the event is permitted. -/
theorem run_trigger_bind (event : String) {rest : InPlace Unit} {change : Scope → Scope}
    (hrest : ∀ s', s.trigger event = .ok s' →
      rest.run (r.set i s') = .ok () ((r.set i s').set i (change s'))) :
    (trigger i event >>= fun _ => rest).run r = reset r i ((s.trigger event).map change) := by
  -- The event comes before all writes, so a refusal leaves nothing behind.
  have hrun := run_trigger h event
  cases hs' : s.trigger event with
  | error fault =>
    rw [hs'] at hrun
    rw [run_bind_of_error hrun]
    rfl
  | ok s' =>
    rw [hs'] at hrun
    rw [run_bind_of_ok hrun, hrest s' hs', Registry.set_set]
    rfl

/-- A tag is written after its event was permitted. -/
theorem run_tag (added : Tag) : (tag i added).run r = reset r i (s.tag added) := by
  have hrun := run_trigger_bind h "tag" fun s' _ =>
    run_write (Registry.get?_set_self (Registry.lt_size_of_get? h) s')
      fun s => { s with tags := s.tags.insert added }
  rw [tag, hrun, Scope.tag]
  cases s.trigger "tag" <;> rfl

/-- The construct is written after its event was permitted. -/
theorem run_awaitName (hi : s.Intact) (construct : Option Construct) :
    (awaitName i construct).run r = reset r i (s.awaitName construct) := by
  have hrun := run_trigger_bind h "await_name" fun s' hs' =>
    run_setGiven (Registry.get?_set_self (Registry.lt_size_of_get? h) s')
      -- An event that was permitted was not refused by a closed scope, so the scope is not frozen.
      (frozen_of_trigger hi (by rfl) hs') "_type"
      (fun construct s => { s with construct := some construct }) construct
  rw [awaitName, hrun, Scope.awaitName]
  cases s.trigger "await_name" <;> cases construct <;> rfl

/-- Two fields are written one after the other. -/
theorem run_setName (hf : s.frozen = false) (given : String) (location : Option Location) :
    (setName i given location).run r =
      .ok () (r.set i { s with name := some given, location := location.getD s.location }) := by
  let called := { s with name := some given }
  have hcalled : (r.set i called).get? i = some called :=
    Registry.get?_set_self (Registry.lt_size_of_get? h) called
  rw [setName, run_bind_of_ok (run_setField h hf "_name" _), run_setGiven hcalled hf,
    Registry.set_set]
  cases location <;> rfl

/-- The name is written after its event was permitted. -/
theorem run_assignName (hi : s.Intact) (given : String) (location : Option Location) :
    (assignName i given location).run r = reset r i (s.assignName given location) := by
  rw [assignName, run_bind_of_ok (run_scope h), Scope.assignName]
  by_cases hst : s.status ≠ .awaitingName
  · rw [if_pos hst, if_pos hst]
    rfl
  · have hrun := run_trigger_bind h "name" fun s' hs' =>
      run_setName (Registry.get?_set_self (Registry.lt_size_of_get? h) s')
        (frozen_of_trigger hi (by rfl) hs') given location
    rw [if_neg hst, if_neg hst, hrun]
    cases s.trigger "name" <;> rfl

/-- A scope is frozen last of all. -/
theorem run_close : (close i).run r = reset r i s.close := by
  rw [close, run_bind_of_ok (run_scope h), Scope.close]
  cases hf : s.frozen with
  | true =>
    rw [if_pos rfl, if_pos rfl]
    exact congrArg (EStateM.Result.ok ()) (Registry.set_get? h).symm
  | false =>
    -- The event does not freeze the scope, so the flag can still be set.
    have hrun := run_trigger_bind h "close" fun s' hs' =>
      run_setField (Registry.get?_set_self (Registry.lt_size_of_get? h) s')
        ((unchanged_of_trigger hs').1.trans hf) "_frozen" fun s => { s with frozen := true }
    rw [if_neg Bool.false_ne_true, if_neg Bool.false_ne_true, hrun]
    cases s.trigger "close" <;> rfl

end Scope

/-! ## Any scope -/

section Amend

variable {r : Registry} {i : Nat}

theorem run_scope_of_none (h : r.get? i = none) : (scope i).run r = .error .outOfRange r := by
  rw [scope, run_get_bind, h]
  rfl

theorem run_trigger_of_none (h : r.get? i = none) (event : String) :
    (trigger i event).run r = .error .outOfRange r :=
  run_bind_of_error (run_scope_of_none h) _

/-- An operation on a scope that may not be there. -/
theorem run_eq_amend {x : InPlace Unit} {operation : Scope → Except Fault Scope}
    (hnone : r.get? i = none → x.run r = .error .outOfRange r)
    (hsome : ∀ s, r.get? i = some s → x.run r = reset r i (operation s)) :
    x.run r = settled r ((r.amend i operation).map (·, ())) := by
  rw [Registry.amend]
  cases hs : r.get? i with
  | none => exact hnone hs
  | some s =>
    rw [hsome s hs, reset]
    dsimp only
    cases operation s <;> rfl

/-- What follows on steps that yield no value. -/
theorem run_bind_return {α : Type} {x : InPlace Unit} {y : Except Fault Registry}
    (h : x.run r = settled r (y.map (·, ()))) (a : α) :
    (x >>= fun _ => pure a).run r = settled r (y.map (·, a)) := by
  cases y with
  | error fault => exact run_bind_of_error h _
  | ok r' => exact run_bind_of_ok h _

variable (hr : ∀ i s, r.get? i = some s → s.Intact)

theorem run_tag_eq (i : Nat) (added : Tag) :
    (tag i added).run r = settled r ((r.amend i (·.tag added)).map (·, ())) :=
  run_eq_amend (fun h => run_bind_of_error (run_trigger_of_none h "tag") _)
    fun _ h => run_tag h added

include hr

theorem run_awaitName_eq (i : Nat) (construct : Option Construct) :
    (awaitName i construct).run r = settled r ((r.amend i (·.awaitName construct)).map (·, ())) :=
  run_eq_amend (fun h => run_bind_of_error (run_trigger_of_none h "await_name") _)
    fun s h => run_awaitName h (hr i s h) construct

theorem run_assignName_eq (i : Nat) (given : String) (location : Option Location) :
    (assignName i given location).run r =
      settled r ((r.amend i (·.assignName given location)).map (·, ())) :=
  run_eq_amend (fun h => run_bind_of_error (run_scope_of_none h) _)
    fun s h => run_assignName h (hr i s h) given location

omit hr in
theorem run_close_eq (i : Nat) :
    (close i).run r = settled r ((r.amend i Scope.close).map (·, ())) :=
  run_eq_amend (fun h => run_bind_of_error (run_scope_of_none h) _) fun _ h => run_close h

end Amend

end InPlace

namespace Registry

/-- Changes are amendments that leave notices. -/
theorem map_fst_change (r : Registry) (i : Nat) (event : String)
    (operation : Scope → Except Fault Scope) :
    (r.change i event operation).map Prod.fst = r.amend i operation := by
  rw [change, amend]
  cases r.get? i with
  | none => rfl
  | some s =>
    dsimp only
    cases operation s <;> rfl

/-- Closing leaves one notice more. -/
theorem map_fst_close (r : Registry) (i : Nat) :
    (r.close i).map Prod.fst = r.amend i Scope.close := by
  rw [← map_fst_change r i "close", close]
  cases r.change i "close" Scope.close with
  | error fault => rfl
  | ok x =>
    dsimp only
    split <;> rfl

/-- An operation that yields no scope. -/
theorem outcome_quiet (x : Except Fault Change) :
    outcome (Operation.quiet x) = (x.map Prod.fst).map (·, none) := by
  cases x <;> rfl

private theorem outcome_followed (x : Except Fault Change) (receiver : Option Nat)
    (notices : List Notice) :
    outcome (match x with
      | .error fault => .error fault
      | .ok (registry, more) => .ok { registry, receiver, notices := notices ++ more }) =
      (x.map Prod.fst).map (·, receiver) := by
  cases x <;> rfl

/-- What a comment does, as an operation on the scope that it is meant for. -/
theorem outcome_onComment (r : Registry) (i : Nat) (accepts : String → Bool) (t : Token) :
    outcome (r.onComment i accepts t) =
      if t.isTagComment then
        if accepts t.tag.name then
          ((r.receiverAt i).1.amend (r.receiverAt i).2.1 (·.tag t.tag)).map
            (·, some (r.receiverAt i).2.1)
        else .ok ((r.receiverAt i).1, some (r.receiverAt i).2.1)
      else .ok (r, some i) := by
  rw [onComment]
  by_cases ht : t.isTagComment = true
  · rw [if_pos ht, if_pos ht]
    generalize r.receiverAt i = x
    obtain ⟨registry, receiver, notices⟩ := x
    by_cases ha : accepts t.tag.name = true
    · simp only [if_pos ha, if_pos (show accepts (t.tagName.getD "") = true from ha)]
      rw [← map_fst_change registry receiver "tag"]
      exact outcome_followed _ (some receiver) notices
    · simp only [if_neg ha, if_neg (show ¬accepts (t.tagName.getD "") = true from ha)]
      rfl
  · rw [if_neg ht, if_neg ht]
    rfl

/-- What the keyword of a construct does, likewise. -/
theorem outcome_onKeyword_newScope (r : Registry) (i : Nat) {t : Token}
    (ht : t.keywordClass = some .newScope) :
    outcome (r.onKeyword i t) =
      ((r.receiverAt i).1.amend (r.receiverAt i).2.1 (·.awaitName t.construct)).map
        (·, some (r.receiverAt i).2.1) := by
  rw [onKeyword, ht]
  generalize r.receiverAt i = x
  obtain ⟨registry, receiver, notices⟩ := x
  rw [← map_fst_change registry receiver "await_name"]
  exact outcome_followed _ (some receiver) notices

/-- What an `end` does: the parent is the one from before. -/
theorem outcome_onKeyword_scopeEnd (r : Registry) (i : Nat) {t : Token}
    (ht : t.keywordClass = some .scopeEnd) :
    outcome (r.onKeyword i t) =
      (r.amend i Scope.close).map (·, (r.get? i).bind (·.parent)) := by
  rw [onKeyword, ht, ← map_fst_close]
  dsimp only
  cases r.close i <;> rfl

/-- What a name does. -/
theorem outcome_onName (r : Registry) (i : Nat) (t : Token) :
    outcome (r.onName i t) =
      if t.text ∉ ignoredNames ∧ (r.get? i).any (·.status = .awaitingName) then
        (r.amend i (·.assignName t.text (some t.location))).map (·, some i)
      else .ok (r, some i) := by
  rw [onName]
  split
  · rw [← map_fst_change r i "name"]
    exact outcome_followed _ (some i) []
  · rfl

/-- Once a scope has been made for what follows, the operation on it is permitted. -/
private theorem settled_receiverAt {α : Type} (r : Registry) (i : Nat)
    (operation : Scope → Except Fault Scope) {s' : Scope} (h : operation (r.inner i) = .ok s')
    (a : α) :
    InPlace.settled (r.receiverAt i).1
        (((r.receiverAt i).1.amend (r.receiverAt i).2.1 operation).map (·, a)) =
      InPlace.settled r
        (((r.receiverAt i).1.amend (r.receiverAt i).2.1 operation).map (·, a)) := by
  by_cases hn : (r.get? i).any (·.status = .named) = true
  -- A new scope refuses nothing, so there is no fault that could leave it behind.
  · obtain ⟨s, hs, hst⟩ := (Option.any_eq_true _ _).mp hn
    obtain ⟨notices, hreceiver⟩ := receiverAt_of_named hs (of_decide_eq_true hst)
    simp only [hreceiver, amend, get?_push_size, h]
    rfl
  · rw [receiverAt, if_neg hn]

end Registry

namespace InPlace

/-! ## Tokens -/

variable {r : Registry}

/-- A scope that is made for what follows is written at once. -/
theorem run_receiverAt (r : Registry) (i : Nat) :
    (receiverAt i).run r = .ok (r.receiverAt i).2.1 (r.receiverAt i).1 := by
  rw [receiverAt, run_get_bind, Registry.receiverAt]
  split <;> rfl

/-- An operation on the scope for which a token is meant. -/
theorem run_receiverAt_bind {i : Nat} {step : Nat → InPlace Unit}
    (operation : Scope → Except Fault Scope) {s' : Scope} (hs' : operation (r.inner i) = .ok s')
    (hstep : ∀ r' j, r' = (r.receiverAt i).1 → j = (r.receiverAt i).2.1 →
      (step j).run r' = settled r' ((r'.amend j operation).map (·, ()))) :
    (receiverAt i >>= fun j => step j >>= fun _ => pure (some j)).run r =
      settled r (((r.receiverAt i).1.amend (r.receiverAt i).2.1 operation).map
        (·, some (r.receiverAt i).2.1)) := by
  rw [run_bind_of_ok (run_receiverAt r i), run_bind_return (hstep _ _ rfl rfl),
    Registry.settled_receiverAt r i operation hs']

/-- A comment in place. -/
theorem run_onComment (r : Registry) (i : Nat) (accepts : String → Bool) (t : Token) :
    (onComment i accepts t).run r = settled r (Registry.outcome (r.onComment i accepts t)) := by
  -- The only write before an event is that of a new scope, and that one can be tagged.
  obtain ⟨s', hs'⟩ : ∃ s', (r.inner i).tag t.tag = .ok s' :=
    ⟨_, (Scope.tag_eq (r.inner_intact i) t.tag).trans (if_pos (.inl rfl))⟩
  have htag := run_receiverAt_bind (·.tag t.tag) hs' fun _ j _ _ => run_tag_eq j t.tag
  rw [onComment, Registry.outcome_onComment]
  by_cases ht : t.isTagComment = true
  · rw [if_pos ht, if_pos ht]
    by_cases ha : accepts t.tag.name = true
    · simp only [if_pos ha]
      exact htag
    · simp only [if_neg ha]
      exact run_bind_of_ok (run_receiverAt r i) _
  · rw [if_neg ht, if_neg ht]
    rfl

/-- The parent is looked up once the scope is closed, which does not change it. -/
theorem run_close_bind (r : Registry) (i : Nat) :
    (close i >>= fun _ => scope i >>= fun s => pure s.parent).run r =
      settled r ((r.amend i Scope.close).map (·, (r.get? i).bind (·.parent))) := by
  have hclose := run_close_eq (r := r) i
  cases hs : r.get? i with
  | none =>
    simp only [Registry.amend, hs] at hclose ⊢
    exact run_bind_of_error hclose _
  | some s =>
    simp only [Registry.amend, hs] at hclose ⊢
    -- Only a scope that could be closed is looked at again.
    cases hs' : s.close with
    | error fault =>
      rw [hs'] at hclose
      exact run_bind_of_error hclose _
    | ok s' =>
      rw [hs'] at hclose
      have hget : (r.set i s').get? i = some s' :=
        Registry.get?_set_self (Registry.lt_size_of_get? hs) s'
      rw [run_bind_of_ok hclose, run_bind_of_ok (run_scope hget), parent_eq_of_close hs']
      rfl

section Intact

variable (hr : ∀ i s, r.get? i = some s → s.Intact)

include hr

/-- A scope that is made for what follows is not frozen either. -/
private theorem intact_receiverAt (i : Nat) {j : Nat} {s : Scope}
    (h : (r.receiverAt i).1.get? j = some s) : s.Intact := by
  by_cases hn : (r.get? i).any (·.status = .named) = true
  · obtain ⟨e, he, hst⟩ := (Option.any_eq_true _ _).mp hn
    obtain ⟨notices, hreceiver⟩ := Registry.receiverAt_of_named he (of_decide_eq_true hst)
    rw [hreceiver] at h
    rcases Registry.get?_push_cases h with ⟨_, h⟩ | ⟨rfl, rfl⟩
    · exact hr j s h
    · exact r.inner_intact i
  · rw [Registry.receiverAt, if_neg hn] at h
    exact hr j s h

/-- A keyword in place. -/
theorem run_onKeyword (i : Nat) (t : Token) :
    (onKeyword i t).run r = settled r (Registry.outcome (r.onKeyword i t)) := by
  obtain ⟨s', hs'⟩ : ∃ s', (r.inner i).awaitName t.construct = .ok s' :=
    ⟨_, (Scope.awaitName_eq (r.inner_intact i) t.construct).trans (if_pos (.inl rfl))⟩
  have hawait := run_receiverAt_bind (·.awaitName t.construct) hs' fun r' j hr' _ =>
    run_awaitName_eq (fun k s h => intact_receiverAt hr i (hr' ▸ h)) j t.construct
  rw [onKeyword]
  rcases ht : t.keywordClass with _ | (_ | _ | _)
  · rw [Registry.onKeyword, ht]
    rfl
  · rw [Registry.outcome_onKeyword_newScope r i ht]
    exact hawait
  · rw [Registry.outcome_onKeyword_scopeEnd r i ht]
    exact run_close_bind r i
  · rw [Registry.onKeyword, ht]
    rfl

/-- A name in place. -/
theorem run_onName (i : Nat) (t : Token) :
    (onName i t).run r = settled r (Registry.outcome (r.onName i t)) := by
  rw [onName, run_get_bind, Registry.outcome_onName]
  split
  · exact run_bind_return (run_assignName_eq hr i t.text (some t.location)) (some i)
  · rfl

end Intact

end InPlace

namespace Operation

/-- Carry out an operation in place, and yield a scope if it has one to yield. -/
def inPlace (settings : Settings) : Operation → InPlace (Option Nat)
  | .create parent arena => do
    if parent.all (· < (← get).size) then return some (← InPlace.enroll parent arena)
    else throw .outOfRange
  | .spawn i => do
    let _ ← InPlace.scope i
    return some (← InPlace.enroll (some i) none)
  | .tag i added => do
    InPlace.tag i added
    return none
  | .awaitName i construct => do
    InPlace.awaitName i construct
    return none
  | .assignName i given location => do
    InPlace.assignName i given location
    return none
  | .close i => do
    InPlace.close i
    return none
  | .comment i token none => InPlace.onComment i settings.accepts token
  | .comment i token (some filter) => InPlace.onComment i (fun tag => filter.accepts tag) token
  | .keyword i token => InPlace.onKeyword i token
  | .name i token => InPlace.onName i token

/-- In place every operation has the same outcome, and where it fails the registry is as it was. -/
theorem run_inPlace {r : Registry} (hr : ∀ i s, r.get? i = some s → s.Intact) (settings : Settings)
    (op : Operation) :
    (op.inPlace settings).run r = InPlace.settled r (Registry.outcome (op.perform settings r)) := by
  -- Whatever an operation writes, it writes after the last event that can be refused.
  cases op with
  | create parent arena =>
    rw [inPlace, InPlace.run_get_bind, perform]
    split <;> rfl
  | spawn i =>
    cases h : r.get? i with
    | none =>
      rw [inPlace, InPlace.run_bind_of_error (InPlace.run_scope_of_none h), perform, h]
      rfl
    | some s =>
      rw [inPlace, InPlace.run_bind_of_ok (InPlace.run_scope h), perform, h]
      rfl
  | tag i added =>
    rw [inPlace, perform, Registry.outcome_quiet, Registry.tag, Registry.map_fst_change]
    exact InPlace.run_bind_return (InPlace.run_tag_eq i added) none
  | awaitName i construct =>
    rw [inPlace, perform, Registry.outcome_quiet, Registry.awaitName, Registry.map_fst_change]
    exact InPlace.run_bind_return (InPlace.run_awaitName_eq hr i construct) none
  | assignName i given location =>
    rw [inPlace, perform, Registry.outcome_quiet, Registry.assignName, Registry.map_fst_change]
    exact InPlace.run_bind_return (InPlace.run_assignName_eq hr i given location) none
  | close i =>
    rw [inPlace, perform, Registry.outcome_quiet, Registry.map_fst_close]
    exact InPlace.run_bind_return (InPlace.run_close_eq i) none
  | comment i token filter =>
    cases filter with
    | none => exact InPlace.run_onComment r i settings.accepts token
    | some filter => exact InPlace.run_onComment r i (fun tag => filter.accepts tag) token
  | keyword i token => exact InPlace.run_onKeyword hr i token
  | name i token => exact InPlace.run_onName hr i token

end Operation

end ScopeTags
