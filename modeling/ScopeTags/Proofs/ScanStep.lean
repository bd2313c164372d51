import ScopeTags.Proofs.Reaction

/-!
# One token of a scan

`Scan.dispatch` hands a token to the current scope.  Here its outcome is read off the response of
the registry: the token is taken (`Scan.dispatch_of_ok`), stops the scan
(`Scan.dispatch_of_raise`), is passed over (`Scan.dispatch_of_skip`), or goes to the parent
(`Scan.dispatch_of_heir`).  `Scan.feed_of_heir` and `Scan.feed_of_misfit` say the same of the last
two for a whole step, and `Scan.runFrom_of_feed_ok` and its companions for an event of a run.
`Scan.Feeds` chains the tokens that are taken one after the other, and `Scan.feedAll` feeds tokens
up to the first one that stops the scan.
-/

namespace ScopeTags

/-- The run with more visits and notices in front. -/
def Run.behind (run : Run) (visits : List (Token × Scan)) (notices : List Notice) : Run :=
  { run with visits := visits ++ run.visits, notices := notices ++ run.notices }

namespace Scan

/-- The state once the registry has responded.  Where no scope is left to receive tokens, a new
    outermost one does. -/
def moved (s : Scan) : Registry × Option Nat → Scan
  | (registry, some i) => { s with registry, current := i }
  | (registry, none) => { s with registry := addRoot registry, current := registry.size }

/-- The state after a reaction. -/
private theorem settle_eq (s : Scan) (t : Token) (reaction : Reaction) :
    (s.settle t reaction).1 = s.moved (reaction.registry, reaction.receiver) := by
  rw [settle]
  split
  · next h => rw [h]; rfl
  · next h => rw [h]; rfl

section Dispatch

variable {o : Options} {t : Token} {s : Scan} {e : Scope}

/-- A token that the current scope can take is taken. -/
theorem dispatch_of_ok (he : s.currentScope? = some e) (hi : e.Intact) {x : Registry × Option Nat}
    (h : s.registry.respond s.current e (t.role o.settings.accepts) = .ok x) :
    ∃ notices, s.dispatch o t = .ok (s.moved x, notices) := by
  rw [← Registry.react_eq he hi] at h
  rw [dispatch]
  -- A reaction has the outcome of the response.
  cases hr : s.registry.react s.current o.settings.accepts t with
  | error fault =>
    rw [hr] at h
    cases h
  | ok reaction =>
    rw [hr] at h
    obtain rfl := Except.ok.inj h
    exact ⟨(s.settle t reaction).2, by rw [← settle_eq s t]⟩

/-- A fault of the registry is the one with which the current scope reacts. -/
theorem react_of_error (he : s.currentScope? = some e) (hi : e.Intact) {fault : Fault}
    (h : s.registry.respond s.current e (t.role o.settings.accepts) = .error fault) :
    s.registry.react s.current o.settings.accepts t = .error fault := by
  rw [← Registry.react_eq he hi] at h
  cases hr : s.registry.react s.current o.settings.accepts t with
  | error fault' =>
    rw [hr] at h
    obtain rfl := Except.error.inj h
    rfl
  | ok reaction =>
    rw [hr] at h
    cases h

/-- A token that does not fit stops the scan. -/
theorem dispatch_of_raise (he : s.currentScope? = some e) (hi : e.Intact) {fault : Fault}
    (h : s.registry.respond s.current e (t.role o.settings.accepts) = .error fault)
    (hp : o.settings.policy = .raise) :
    s.dispatch o t = .error (fault.locate (siteOf o.file t)) := by
  rw [dispatch, react_of_error he hi h]
  simp only [hp]

/-- A token that does not fit is passed over if no other scope can take it. -/
theorem dispatch_of_skip (he : s.currentScope? = some e) (hi : e.Intact) {fault : Fault}
    (h : s.registry.respond s.current e (t.role o.settings.accepts) = .error fault)
    (hp : o.settings.policy = .skip) (hh : s.heir? t = none) :
    ∃ notices, s.dispatch o t = .ok ({ s with skipped := s.skipped + 1 }, notices) := by
  rw [dispatch, react_of_error he hi h]
  simp only [hp, hh]
  exact ⟨_, rfl⟩

/-- An `end` that does not fit goes to the parent if the current scope has no name to come. -/
theorem dispatch_of_heir (he : s.currentScope? = some e) (hi : e.Intact) {fault : Fault}
    (h : s.registry.respond s.current e (t.role o.settings.accepts) = .error fault)
    (hp : o.settings.policy = .skip) {e' : Scope} {parent : Nat}
    (hh : s.heir? t = some (e', parent)) (hlt : parent < s.current) {s' : Scan}
    {notices : List Notice} (hd : { s with current := parent }.dispatch o t = .ok (s', notices)) :
    ∃ notices, s.dispatch o t = .ok (s', notices) := by
  rw [dispatch, react_of_error he hi h]
  simp only [hp, hh, hlt, if_true, hd]
  exact ⟨_, rfl⟩

/-- An `end` goes to the parent of a scope that is pending or tagged, and nothing else does. -/
theorem heir?_eq (he : s.currentScope? = some e) (o : Options) (t : Token) :
    s.heir? t =
      if t.role o.settings.accepts = .closes ∧ (e.status = .pending ∨ e.status = .tagged) then
        e.parent.map fun parent => (e, parent)
      else none := by
  simp only [heir?, he, Token.role_eq_closes_iff]
  cases hp : e.parent with
  | none => simp [hp]
  | some parent => simp [hp]

/-- An `end` that a scope without a name cannot take closes the scope around it, where tokens are
    passed over. -/
theorem feed_of_heir (he : s.currentScope? = some e) (hi : e.Intact)
    (hp : o.settings.policy = .skip) (hrole : t.role o.settings.accepts = .closes)
    (hst : e.status = .pending ∨ e.status = .tagged) {p : Nat} (hparent : e.parent = some p)
    (hlt : p < s.current) {e' : Scope} (he' : s.registry.get? p = some e') (hi' : e'.Intact)
    (hn : e'.status = .named) :
    ∃ notices, s.feed o t = .ok ({ s with consumed := s.consumed + 1, current := p }.moved
      (s.registry.set p e'.shut, e'.parent), notices) := by
  have hrefused : s.registry.respond s.current e (t.role o.settings.accepts) =
      .error (e.refuse "close") := by
    rw [hrole]
    rcases hst with hst | hst <;> simp only [Registry.respond, hst]
  have hclosed : s.registry.respond p e' (t.role o.settings.accepts) =
      .ok (s.registry.set p e'.shut, e'.parent) := by
    rw [hrole]
    simp only [Registry.respond, hn]
  -- The current scope refuses the `end`, and the one around it takes it.
  have hheir := heir?_eq (s := { s with consumed := s.consumed + 1 }) he o t
  rw [if_pos ⟨hrole, hst⟩, hparent] at hheir
  obtain ⟨_, hd⟩ := dispatch_of_ok (s := { s with consumed := s.consumed + 1, current := p })
    he' hi' hclosed
  exact dispatch_of_heir (s := { s with consumed := s.consumed + 1 }) he hi hrefused hp hheir hlt hd

/-- Any other token that does not fit is counted, where tokens are passed over. -/
theorem feed_of_misfit (he : s.currentScope? = some e) (hi : e.Intact)
    (hp : o.settings.policy = .skip) {fault : Fault}
    (h : s.registry.respond s.current e (t.role o.settings.accepts) = .error fault)
    (hno : ¬(t.role o.settings.accepts = .closes ∧
      (e.status = .pending ∨ e.status = .tagged) ∧ e.parent.isSome = true)) :
    ∃ notices, s.feed o t =
      .ok ({ s with consumed := s.consumed + 1, skipped := s.skipped + 1 }, notices) := by
  refine dispatch_of_skip (s := { s with consumed := s.consumed + 1 }) he hi h hp ?_
  rw [heir?_eq (s := { s with consumed := s.consumed + 1 }) he o t]
  split
  · next hc =>
    -- It is an `end`, but the scope is an outermost one.
    cases hparent : e.parent with
    | none => rfl
    | some parent => exact absurd ⟨hc.1, hc.2, by rw [hparent]; rfl⟩ hno
  · rfl

end Dispatch

/-- A scan that passes over tokens never stops at one. -/
theorem dispatch_skip_ne_error {o : Options} (hp : o.settings.policy = .skip) (t : Token)
    (s : Scan) (fault : Fault) : s.dispatch o t ≠ .error fault := by
  -- Along the scopes that get the token; only the other policy yields a fault.
  fun_induction dispatch o t s <;> simp_all

/-- Of the options, what becomes of a token depends on the settings and the file only. -/
theorem dispatch_congr {o o' : Options} (hsettings : o'.settings = o.settings)
    (hfile : o'.file = o.file) (t : Token) (s : Scan) : s.dispatch o' t = s.dispatch o t := by
  -- The induction follows the token from scope to scope.
  fun_induction dispatch o t s with
  | case1 s reaction hreact => rw [dispatch, hsettings, hreact]
  | case2 s fault hreact hpolicy =>
    rw [dispatch, hsettings, hfile, hreact]
    simp only [hpolicy]
  | case3 s fault hreact hpolicy passOver hheir =>
    rw [dispatch, hsettings, hfile, hreact]
    simp only [hpolicy, hheir, passOver]
  | case4 s fault hreact hpolicy scope parent hheir hlt fault' hnext ih =>
    rw [dispatch, hsettings, hfile, hreact]
    simp only [hpolicy, hheir, if_pos hlt, ih, hnext]
  | case5 s fault hreact hpolicy scope parent hheir hlt next notices hnext ih =>
    rw [dispatch, hsettings, hfile, hreact]
    simp only [hpolicy, hheir, if_pos hlt, ih, hnext]
  | case6 s fault hreact hpolicy passOver scope parent hheir hlt =>
    rw [dispatch, hsettings, hfile, hreact]
    simp only [hpolicy, hheir, if_neg hlt, passOver]

/-- A reaction counts no token. -/
private theorem consumed_settle (s : Scan) (t : Token) (reaction : Reaction) :
    (s.settle t reaction).1.consumed = s.consumed := by
  rw [settle]
  split <;> rfl

/-- The way of a token from scope to scope counts no token. -/
private theorem consumed_dispatch {o : Options} {t : Token} {s next : Scan} {notices : List Notice}
    (h : s.dispatch o t = .ok (next, notices)) : next.consumed = s.consumed := by
  -- By induction on the scopes that get the token, one after the other.
  fun_induction dispatch o t s generalizing notices with
  | case1 s reaction hreact => rw [← consumed_settle s t reaction, Except.ok.inj h]
  | case2 s fault hreact hpolicy => cases h
  | case3 s fault hreact hpolicy hheir =>
    obtain ⟨rfl, -⟩ := Prod.mk.inj (Except.ok.inj h)
    rfl
  | case4 s fault hreact hpolicy scope parent hheir hlt fault' hnext ih => cases h
  | case5 s fault hreact hpolicy scope parent hheir hlt last notices' hnext ih =>
    obtain ⟨rfl, -⟩ := Prod.mk.inj (Except.ok.inj h)
    exact ih hnext
  | case6 s fault hreact hpolicy scope parent hheir hlt =>
    obtain ⟨rfl, -⟩ := Prod.mk.inj (Except.ok.inj h)
    rfl

/-- A token is counted once, whichever scope takes it and whether or not one does. -/
theorem consumed_feed {o : Options} {t : Token} {s next : Scan} {notices : List Notice}
    (h : s.feed o t = .ok (next, notices)) : next.consumed = s.consumed + 1 :=
  consumed_dispatch h

/-! ## One event -/

/-- Without a limit a scan is not cancelled. -/
theorem isCancelled_of_none {o : Options} (h : o.cancelAfter = none) (s : Scan) :
    s.isCancelled o = false := by
  simp [isCancelled, h]

section Events

variable {o : Options} {s : Scan} {event : Source.Event} (events : List Source.Event)

/-- An event that is a fault stops the run. -/
theorem runFrom_of_fault {fault : Fault} (hfault : event.fault? o.strict o.file = some fault) :
    s.runFrom o (event :: events) = { final := s, fault := some fault } := by
  rw [runFrom, hfault]

variable (hfault : event.fault? o.strict o.file = none)

include hfault

/-- Any other one that is no token leaves a notice at most. -/
theorem runFrom_of_no_token (htoken : event.token? = none) :
    s.runFrom o (event :: events) =
      (s.runFrom o events).behind [] (event.notice? o.file).toList := by
  rw [runFrom, hfault, htoken]
  rfl

variable {t : Token} (htoken : event.token? = some t)

include htoken

/-- A run that is cancelled stops before the token. -/
theorem runFrom_of_cancelled (hc : s.isCancelled o = true) :
    s.runFrom o (event :: events) = { final := s, fault := some (.cancelled s.consumed) } := by
  rw [runFrom, hfault, htoken]
  simp only [hc, if_true]

/-- A token that stops the scan leaves the state as it was. -/
theorem runFrom_of_feed_error (hc : s.isCancelled o = false) {fault : Fault}
    (hfeed : s.feed o t = .error fault) :
    s.runFrom o (event :: events) = { final := s, fault := some fault } := by
  rw [runFrom, hfault, htoken]
  simp only [hc, hfeed, Bool.false_eq_true, if_false]

/-- A token that is taken is visited, and the run goes on. -/
theorem runFrom_of_feed_ok (hc : s.isCancelled o = false) {next : Scan} {notices : List Notice}
    (hfeed : s.feed o t = .ok (next, notices)) :
    s.runFrom o (event :: events) = (next.runFrom o events).behind [(t, next)] notices := by
  rw [runFrom, hfault, htoken]
  simp only [hc, hfeed, Bool.false_eq_true, if_false]
  rfl

end Events

/-! ## Several tokens -/

/-- The state after tokens that are fed one after the other, or the fault of the first one that
    stops the scan. -/
def feedAll (o : Options) (s : Scan) : List Token → Except Fault Scan
  | [] => .ok s
  | t :: ts =>
    match s.feed o t with
    | .error fault => .error fault
    | .ok (next, _) => next.feedAll o ts

/-- A token that is taken, and those after it. -/
theorem feedAll_cons_of_ok {o : Options} {s next : Scan} {t : Token} {notices : List Notice}
    (h : s.feed o t = .ok (next, notices)) (ts : List Token) :
    s.feedAll o (t :: ts) = next.feedAll o ts := by
  rw [feedAll, h]

/-- A token that stops the scan. -/
theorem feedAll_cons_of_error {o : Options} {s : Scan} {t : Token} {fault : Fault}
    (h : s.feed o t = .error fault) (ts : List Token) :
    s.feedAll o (t :: ts) = .error fault := by
  rw [feedAll, h]

/-- Tokens in two parts. -/
theorem feedAll_append (o : Options) (s : Scan) (ts us : List Token) :
    s.feedAll o (ts ++ us) = s.feedAll o ts >>= fun s' => s'.feedAll o us := by
  induction ts generalizing s with
  | nil => rfl
  | cons t ts ih =>
    rw [List.cons_append, feedAll, feedAll]
    cases s.feed o t with
    | error fault => rfl
    | ok after => exact ih after.1

/-- Feeding the tokens one after the other leads from one state to another. -/
inductive Feeds (o : Options) : Scan → List Token → Scan → Prop where
  | nil (s : Scan) : Feeds o s [] s
  | cons {s s' s'' : Scan} {t : Token} {ts : List Token} {notices : List Notice}
      (h : s.feed o t = .ok (s', notices)) (hs : Feeds o s' ts s'') : Feeds o s (t :: ts) s''

namespace Feeds

variable {o : Options} {s s' s'' : Scan} {t : Token} {ts us : List Token}

/-- One token that is taken is fed. -/
theorem single {notices : List Notice} (h : s.feed o t = .ok (s', notices)) : Feeds o s [t] s' :=
  .cons h (.nil s')

/-- Tokens are fed in two parts, one after the other. -/
theorem append (h : Feeds o s ts s') (h' : Feeds o s' us s'') : Feeds o s (ts ++ us) s'' := by
  induction h with
  | nil s => exact h'
  | cons hf _ ih => exact .cons hf (ih h')

/-- A scan that is not cancelled goes through tokens that can be fed and on from there. -/
theorem runFrom_eq (h : Feeds o s ts s') (hc : o.cancelAfter = none) (events : List Source.Event) :
    (s.runFrom o (ts.map .token ++ events)).final = (s'.runFrom o events).final ∧
      (s.runFrom o (ts.map .token ++ events)).fault = (s'.runFrom o events).fault := by
  induction h with
  | nil s => exact ⟨rfl, rfl⟩
  | @cons s s₁ s₂ t ts notices hf hs ih =>
    have hstep : s.runFrom o (.token t :: (ts.map .token ++ events)) = _ :=
      runFrom_of_feed_ok _ rfl rfl (isCancelled_of_none hc s) hf
    rw [List.map_cons, List.cons_append, hstep]
    exact ih

end Feeds

/-- The two ways to chain tokens agree. -/
theorem feedAll_eq_ok_iff {o : Options} {s s' : Scan} {ts : List Token} :
    s.feedAll o ts = .ok s' ↔ Feeds o s ts s' := by
  constructor
  · -- By induction on the tokens in the one direction, and on the chain in the other.
    intro h
    induction ts generalizing s with
    | nil =>
      obtain rfl := Except.ok.inj h
      exact .nil s
    | cons t ts ih =>
      cases hfeed : s.feed o t with
      | error fault =>
        rw [feedAll_cons_of_error hfeed] at h
        cases h
      | ok after =>
        rw [feedAll_cons_of_ok hfeed] at h
        exact .cons hfeed (ih h)
  · intro h
    induction h with
    | nil s => rfl
    | cons hfeed _ ih => exact (feedAll_cons_of_ok hfeed _).trans ih

end Scan

end ScopeTags
