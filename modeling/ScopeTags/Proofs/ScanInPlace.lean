import ScopeTags.Proofs.InPlace
import ScopeTags.Proofs.ScanInvariant

/-!
# Scans in place

`Scan.feed` yields another state or a fault, so that nothing is left of a token that is refused.
Here a scan writes to its state as it goes: a token is counted before anything else, the current
scope reacts in place, and an `end` moves to the parent before the parent reacts.  A fault leaves
behind what was written before it.  That is the count of the token and nothing else, since a scope
refuses a token before it writes.

## Key results

- `Scan.InPlace.run_dispatchFor`: however many rounds are allowed, a token ends as in
  `Scan.dispatch`
- `Scan.InPlace.run_feed`: one token, and what is left of it where it is refused
- `Scan.InPlace.run_follow`: a whole run, and what is left where it is stopped
-/

namespace ScopeTags

namespace InPlace

/-- React to a token while scope `i` is current. -/
def react (i : Nat) (accepts : String → Bool) (t : Token) : InPlace (Option Nat) :=
  match t.kind with
  | .comment => onComment i accepts t
  | .keyword => onKeyword i t
  | .identifier => onName i t
  | .constant => onName i t

/-- A reaction in place, by the kind of the token. -/
theorem run_react {r : Registry} (hr : ∀ i s, r.get? i = some s → s.Intact) (i : Nat)
    (accepts : String → Bool) (t : Token) :
    (react i accepts t).run r = settled r (Registry.outcome (r.react i accepts t)) := by
  rw [react, Registry.react]
  cases t.kind with
  | comment => exact run_onComment r i accepts t
  | keyword => exact run_onKeyword hr i t
  | identifier => exact run_onName hr i t
  | constant => exact run_onName hr i t

end InPlace

namespace Scan

/-- Steps that write to the state of a scan.  What is written stays, whether or not a fault comes
    after it. -/
abbrev InPlace := EStateM Fault Scan

namespace InPlace

/-- Let the current scope react.  What it wrote stays, also where it refuses the token. -/
def react (accepts : String → Bool) (t : Token) : Scan.InPlace (Except Fault (Option Nat)) := do
  let s ← get
  match (ScopeTags.InPlace.react s.current accepts t).run s.registry with
  | .ok receiver registry =>
    set { s with registry }
    return .ok receiver
  | .error fault registry =>
    set { s with registry }
    return .error fault

/-- Go on with the scope that receives the next token.  Where there is none, make one. -/
def moveTo : Option Nat → Scan.InPlace Unit
  | some i => modify fun s => { s with current := i }
  | none => modify fun s =>
      { s with registry := addRoot s.registry, current := s.registry.size }

/-- Hand an `end` that the current scope refuses to its parent, if it is meant for that one. -/
def handOver (t : Token) : Scan.InPlace Bool := do
  match (← get).heir? t with
  | some (_, parent) =>
    modify fun s => { s with current := parent }
    return true
  | none => return false

/-- Let scopes react to a token in turn, in at most that many rounds. -/
def dispatchFor (o : Options) (t : Token) : Nat → Scan.InPlace Unit
  | 0 => return ()
  | rounds + 1 => do
    match ← react o.settings.accepts t with
    | .ok receiver => moveTo receiver
    | .error fault =>
      match o.settings.policy with
      | .raise => throw (fault.locate (siteOf o.file t))
      | .skip =>
        if ← handOver t then dispatchFor o t rounds
        else modify fun s => { s with skipped := s.skipped + 1 }

/-- Take one token. -/
def feed (o : Options) (t : Token) : Scan.InPlace Unit := do
  modify fun s => { s with consumed := s.consumed + 1 }
  dispatchFor o t ((← get).current + 1)

/-- Go through events. -/
def follow (o : Options) : List Source.Event → Scan.InPlace Unit
  | [] => return ()
  | event :: events => do
    match event.fault? o.strict o.file with
    | some fault => throw fault
    | none =>
      match event.token? with
      | none => follow o events
      | some t =>
        let s ← get
        if s.isCancelled o then throw (.cancelled s.consumed)
        else
          feed o t
          follow o events

end InPlace

/-! ## One token -/

/-- A parent that gets an `end` comes before the current scope. -/
private theorem lt_of_heir? {s : Scan} {t : Token} {e : Scope} {parent : Nat}
    (h : s.registry.Arranged) (hheir : s.heir? t = some (e, parent)) : parent < s.current := by
  cases he : s.currentScope? with
  | none => simp [heir?, he] at hheir
  | some scope =>
    rw [heir?_eq he {}] at hheir
    split at hheir
    · obtain ⟨p, hp, hpair⟩ := Option.map_eq_some_iff.mp hheir
      obtain ⟨rfl, rfl⟩ := Prod.mk.inj hpair
      exact (h s.current scope he).parent_lt p hp
    · cases hheir

namespace InPlace

variable {o : Options} {t : Token} {s : Scan}

/-- The state that a step is to leave, and the fault if there is one. -/
def settled (s : Scan) : Except Fault (Scan × List Notice) → EStateM.Result Fault Scan Unit
  | .ok (next, _) => .ok () next
  | .error fault => .error fault s

/-- A scope that refuses a token has written nothing. -/
theorem run_react (h : s.registry.Arranged) (accepts : String → Bool) (t : Token) :
    (react accepts t).run s = match s.registry.react s.current accepts t with
      | .ok reaction => .ok (.ok reaction.receiver) { s with registry := reaction.registry }
      | .error fault => .ok (.error fault) s := by
  have hrun := ScopeTags.InPlace.run_react (fun i e he => (h i e he).intact) s.current accepts t
  rw [react, EStateM.run_bind, EStateM.run_get]
  dsimp only
  rw [hrun]
  cases s.registry.react s.current accepts t <;> rfl

/-- The scan goes on as a reaction says. -/
theorem run_moveTo (s : Scan) (t : Token) (reaction : Reaction) :
    (moveTo reaction.receiver).run { s with registry := reaction.registry }
      = .ok () (s.settle t reaction).1 := by
  rw [settle]
  cases reaction.receiver <;> rfl

/-- An `end` goes to the parent just where it does in `Scan.dispatch`. -/
theorem run_handOver (s : Scan) (t : Token) :
    (handOver t).run s = match s.heir? t with
      | some (_, parent) => .ok true { s with current := parent }
      | none => .ok false s := by
  rw [handOver, EStateM.run_bind, EStateM.run_get]
  dsimp only
  cases s.heir? t <;> rfl

/-- A token ends as in `Scan.dispatch`, whether or not more rounds would be allowed. -/
theorem run_dispatchFor (h : s.registry.Arranged) {rounds : Nat} (hrounds : s.current < rounds) :
    (dispatchFor o t rounds).run s = settled s (s.dispatch o t) := by
  -- By induction on the rounds that are left, which the number of the current scope stays below.
  induction rounds generalizing s with
  | zero => omega
  | succ rounds ih =>
    have hreact := run_react h o.settings.accepts t
    rw [dispatchFor, dispatch]
    cases hr : s.registry.react s.current o.settings.accepts t with
    | ok reaction =>
      rw [hr] at hreact
      rw [EStateM.run_bind, hreact]
      exact run_moveTo s t reaction
    | error fault =>
      rw [hr] at hreact
      rw [EStateM.run_bind, hreact]
      dsimp only
      cases hp : o.settings.policy with
      | raise => rfl
      | skip =>
        cases hheir : s.heir? t with
        | none =>
          dsimp only
          rw [EStateM.run_bind, run_handOver, hheir]
          rfl
        | some heir =>
          obtain ⟨e, parent⟩ := heir
          have hlt := lt_of_heir? h hheir
          -- The parent reacts with one round less, and its number is smaller.
          have hparent : (dispatchFor o t rounds).run { s with current := parent }
              = settled { s with current := parent } ({ s with current := parent }.dispatch o t) :=
            ih h (show parent < rounds by omega)
          dsimp only
          rw [EStateM.run_bind, run_handOver, hheir, if_pos hlt]
          cases hnext : { s with current := parent }.dispatch o t with
          | error fault => exact absurd hnext (dispatch_skip_ne_error hp t _ _)
          | ok next =>
            rw [hnext] at hparent
            exact hparent

/-- One token in place.  Where it stops the scan, all that is left of it is that it was counted. -/
theorem run_feed (h : s.registry.Arranged) :
    (feed o t).run s = settled { s with consumed := s.consumed + 1 } (s.feed o t) :=
  run_dispatchFor (s := { s with consumed := s.consumed + 1 }) h (Nat.lt_succ_self _)

/-! ## All tokens -/

/-- What a run in place comes to that goes as `run` and has counted `n` tokens when it is
    stopped. -/
def ending (run : Run) (n : Nat) : EStateM.Result Fault Scan Unit :=
  match run.fault with
  | none => .ok () run.final
  | some fault => .error fault { run.final with consumed := n }

/-- Where a token comes up, it is taken unless the scan is cancelled before it. -/
theorem run_follow_token {event : Source.Event} {events : List Source.Event}
    (hfault : event.fault? o.strict o.file = none) (htoken : event.token? = some t) :
    (follow o (event :: events)).run s =
      if s.isCancelled o then .error (.cancelled s.consumed) s
      else match (feed o t).run s with
        | .ok _ next => (follow o events).run next
        | .error fault left => .error fault left := by
  rw [follow, hfault, htoken]
  dsimp only
  rw [EStateM.run_bind, EStateM.run_get]
  dsimp only
  split
  · rfl
  -- The token is fed, and only where it is taken do the other events follow.
  · rw [EStateM.run_bind]
    cases (feed o t).run s <;> rfl

/-- A whole run in place.  Where it is stopped, the scopes and the current one are as after the last
    token that was taken, and at most one more token has been counted. -/
theorem run_follow (h : s.Coherent o.settings.policy) (events : List Source.Event) :
    ∃ n, (s.runFrom o events).final.consumed ≤ n ∧ n ≤ (s.runFrom o events).final.consumed + 1 ∧
      (follow o events).run s = ending (s.runFrom o events) n := by
  -- One case for each way in which a run goes on or is stopped.
  fun_induction runFrom o s events with
  | case1 s => exact ⟨s.consumed, Nat.le_refl _, Nat.le_succ _, rfl⟩
  | case2 s event events fault hfault =>
    refine ⟨s.consumed, Nat.le_refl _, Nat.le_succ _, ?_⟩
    rw [follow, hfault]
    rfl
  | case3 s event events hfault htoken run ih =>
    obtain ⟨n, hle, hlt, hrun⟩ := ih h
    refine ⟨n, hle, hlt, ?_⟩
    rw [follow, hfault, htoken]
    exact hrun
  | case4 s event events hfault t htoken hcancel =>
    refine ⟨s.consumed, Nat.le_refl _, Nat.le_succ _, ?_⟩
    rw [run_follow_token hfault htoken, if_pos hcancel]
    rfl
  | case5 s event events hfault t htoken hcancel fault hfeed =>
    -- The token that stops the scan was counted, which is the only trace that it leaves.
    have hrun := run_feed (o := o) (t := t) h.arranged
    rw [hfeed] at hrun
    refine ⟨s.consumed + 1, Nat.le_succ _, Nat.le_refl _, ?_⟩
    rw [run_follow_token hfault htoken, if_neg hcancel, hrun]
    rfl
  | case6 s event events hfault t htoken hcancel next notices hfeed run ih =>
    have hrun := run_feed (o := o) (t := t) h.arranged
    rw [hfeed] at hrun
    obtain ⟨n, hle, hlt, hfollow⟩ := ih (feed_coherent h hfeed)
    refine ⟨n, hle, hlt, ?_⟩
    rw [run_follow_token hfault htoken, if_neg hcancel, hrun]
    exact hfollow

end InPlace

end Scan

end ScopeTags
