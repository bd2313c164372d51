import ScopeTags.Proofs.PolicyAgreement

/-!
# What is passed over

A scan that passes over tokens never stops at one.  Which tokens it counts as skipped is a matter of
the current scope alone: a tag that comes between a keyword and its name, and an `end` where there
is no scope that it could close.  Every other `end` closes one scope, the current one or the one
around it, because all scopes around the current one are named.

## Key results

- `Registry.respond_eq_move`: a response, by the move that role and status determine
- `Scan.feed_treats`: everything that one token can do
- `Scan.Accounts`: what that means for the scopes and the counts
- `Scan.run_skip_accounts`: the same for whole scans
-/

namespace ScopeTags

/-! ## Moves -/

/-- What a token makes of the current scope. -/
inductive Move where
  /-- It does nothing. -/
  | stay
  /-- It changes the current scope. -/
  | alter
  /-- It opens a scope inside of the current one. -/
  | descend
  /-- It closes the current scope. -/
  | leave
deriving DecidableEq

namespace Role

/-- The move of a token of the role where the current scope has that status, if it has one. -/
def move? : Role → Status → Option Move
  | idle, _ => some .stay
  | tag _, .pending | tag _, .tagged => some .alter
  | tag _, .named => some .descend
  | tag _, _ => none
  | drop, .named => some .descend
  | drop, _ => some .stay
  | opens _, .named => some .descend
  | opens _, .closed => none
  | opens _, _ => some .alter
  | closes, .named | closes, .closed => some .leave
  | closes, _ => none
  | names _ _, .awaitingName => some .alter
  | names _ _, _ => some .stay

/-- The scope that a token of the role is meant for, once it has come. -/
def applied : Role → Scope → Scope
  | tag t, s => s.withTag t
  | opens construct, s => s.awaiting construct
  | names text location, s => s.called text location
  | _, s => s

/-- No token but an `end` closes a scope. -/
private theorem isClosed_applied (role : Role) {s : Scope} (hs : s.status ≠ .closed) :
    (role.applied s).isClosed = false := by
  cases role <;> simp [applied, Scope.isClosed, Scope.withTag, Scope.awaiting, Scope.called, hs]

/-- Only an `end` closes the current scope, and it does nothing else. -/
theorem eq_leave_iff {role : Role} {status : Status} {move : Move}
    (h : role.move? status = some move) : move = .leave ↔ role = .closes := by
  cases role <;> cases status <;> simp_all [move?] <;> simp [← h]

end Role

/-- The response to a token is a matter of its role and of the status of the current scope. -/
theorem Registry.respond_eq_move {r : Registry} {c : Nat} {s : Scope} (hs : s.status ≠ .closed)
    (role : Role) :
    r.respond c s role = match role.move? s.status with
      | some .stay => .ok (r, some c)
      | some .alter => .ok (r.set c (role.applied s), some c)
      | some .descend => .ok (r.push (role.applied (r.inner c)), some r.size)
      | some .leave => .ok (r.set c s.shut, s.parent)
      | none => .error (s.refuse (role.event?.getD "")) := by
  -- Every role with every status, since the move depends on nothing else.
  cases role <;> cases hst : s.status <;> simp_all [respond, Role.move?, Role.applied, Role.event?]

/-! ## One token -/

/-- Whether no scope can take a token of the role while `s` is the current one: a tag comes between
    a keyword and its name, or an `end` comes before a name or outside of every construct. -/
def Scope.Misfits (s : Scope) (role : Role) : Prop :=
  (∃ tag, role = .tag tag ∧ s.status = .awaitingName) ∨
    (role = .closes ∧
      (s.status = .awaitingName ∨ (s.status = .pending ∨ s.status = .tagged) ∧ s.parent = none))

namespace Scan

/-- What becomes of a scan that passes over tokens, where `e` is the current scope, and the notices
    of it. -/
inductive Treats (o : Options) (t : Token) (s : Scan) (e : Scope) : Scan → List Notice → Prop where
  /-- The current scope takes the token. -/
  | takes {x : Registry × Option Nat} {notices : List Notice}
      (respond_eq : s.registry.respond s.current e (t.role o.settings.accepts) = .ok x)
      (handOvers_eq : notices.countP Notice.isHandOver = 0) :
      Treats o t s e ({ s with consumed := s.consumed + 1 }.moved x) notices
  /-- No scope takes it. -/
  | skips {fault : Fault} {notices : List Notice}
      (respond_eq : s.registry.respond s.current e (t.role o.settings.accepts) = .error fault)
      (misfits : e.Misfits (t.role o.settings.accepts))
      (handOvers_eq : notices.countP Notice.isHandOver = 0) :
      Treats o t s e { s with consumed := s.consumed + 1, skipped := s.skipped + 1 } notices
  /-- The scope around the current one takes it, which is an `end`. -/
  | hands {p : Nat} {e' : Scope} {notices : List Notice}
      (role_eq : t.role o.settings.accepts = .closes)
      (unnamed : e.status = .pending ∨ e.status = .tagged) (parent_eq : e.parent = some p)
      (around : s.registry.get? p = some e') (named : e'.status = .named)
      (handOvers_eq : notices.countP Notice.isHandOver = 1) :
      Treats o t s e ({ s with consumed := s.consumed + 1, current := p }.moved
        (s.registry.set p e'.shut, e'.parent)) notices

/-- The current scope is not closed. -/
theorem Coherent.current_status_ne {policy : Policy} {s : Scan} {e : Scope} (h : s.Coherent policy)
    (he : s.currentScope? = some e) : e.status ≠ .closed := by
  obtain ⟨e', he', hst⟩ := h.current_open
  obtain rfl := Option.some.inj (he.symm.trans he')
  exact hst

section Feed

variable {o : Options} {t : Token} {s : Scan} {e : Scope}

/-- A token that the current scope takes is handed to no other. -/
private theorem dispatch_takes (he : s.currentScope? = some e) (hi : e.Intact)
    {x : Registry × Option Nat}
    (h : s.registry.respond s.current e (t.role o.settings.accepts) = .ok x) :
    ∃ notices, s.dispatch o t = .ok (s.moved x, notices) ∧
      notices.countP Notice.isHandOver = 0 := by
  obtain ⟨notices, hd⟩ := dispatch_of_ok he hi h
  refine ⟨notices, hd, ?_⟩
  -- None of the notices of a reaction says that a token was handed on.
  rw [← Registry.react_eq he hi] at h
  rw [dispatch] at hd
  cases hreact : s.registry.react s.current o.settings.accepts t with
  | error fault =>
    rw [hreact] at h
    cases h
  | ok reaction =>
    rw [hreact] at hd
    have hsettle : (s.settle t reaction).2 = notices := congrArg Prod.snd (Except.ok.inj hd)
    have hany := isHandOver_settle (s := s) (t := t) (Registry.isHandOver_react hreact)
    rw [hsettle] at hany
    simpa [List.countP_eq_zero] using hany

/-- A token that no scope takes leaves one notice. -/
private theorem dispatch_skips (he : s.currentScope? = some e) (hi : e.Intact) {fault : Fault}
    (h : s.registry.respond s.current e (t.role o.settings.accepts) = .error fault)
    (hp : o.settings.policy = .skip) (hh : s.heir? t = none) :
    s.dispatch o t = .ok ({ s with skipped := s.skipped + 1 },
      [.skipped o.file t.location.line t.text fault]) := by
  rw [dispatch, react_of_error he hi h]
  simp only [hp, hh]

/-- An `end` that goes to the parent leaves one notice more than it leaves there. -/
private theorem dispatch_hands (he : s.currentScope? = some e) (hi : e.Intact) {fault : Fault}
    (h : s.registry.respond s.current e (t.role o.settings.accepts) = .error fault)
    (hp : o.settings.policy = .skip) {p : Nat} (hh : s.heir? t = some (e, p)) (hlt : p < s.current)
    {s' : Scan} {notices : List Notice}
    (hd : { s with current := p }.dispatch o t = .ok (s', notices)) :
    s.dispatch o t =
      .ok (s', .leftOpen o.file t.location.line e.status e.id :: notices) := by
  rw [dispatch, react_of_error he hi h]
  simp only [hp, hh, hlt, if_true, hd]

/-- What the current scope refuses and the scope around it does not take either. -/
private theorem misfits_of_error {role : Role} {r : Registry} {c : Nat} {fault : Fault}
    (hs : e.status ≠ .closed) (h : r.respond c e role = .error fault)
    (hno : ¬(role = .closes ∧ (e.status = .pending ∨ e.status = .tagged) ∧ e.parent ≠ none)) :
    e.Misfits role := by
  rw [Registry.respond_eq_move hs] at h
  -- What is left of the roles and statuses without a move is an `end` that goes to the parent.
  cases role <;> cases hst : e.status <;> simp_all [Role.move?, Scope.Misfits]

/-- Everything that a token can do to a scan that passes over tokens. -/
theorem feed_treats (h : s.Coherent .skip) (he : s.currentScope? = some e)
    (hp : o.settings.policy = .skip) (t : Token) :
    ∃ next notices, s.feed o t = .ok (next, notices) ∧ Treats o t s e next notices := by
  have hi : e.Intact := (h.arranged _ e he).intact
  have hopen : e.status ≠ .closed := h.current_status_ne he
  have he₁ : { s with consumed := s.consumed + 1 }.currentScope? = some e := he
  -- The current scope takes the token, or the scope around it does, or none.
  cases hr : s.registry.respond s.current e (t.role o.settings.accepts) with
  | ok x =>
    obtain ⟨notices, hd, hcount⟩ := dispatch_takes he₁ hi hr
    exact ⟨_, notices, hd, .takes hr hcount⟩
  | error fault =>
    have hheir := heir?_eq he₁ o t
    by_cases hc : t.role o.settings.accepts = .closes ∧
        (e.status = .pending ∨ e.status = .tagged) ∧ e.parent ≠ none
    · obtain ⟨hrole, hst, hparent⟩ := hc
      obtain ⟨p, hparent⟩ := Option.ne_none_iff_exists'.mp hparent
      rw [if_pos ⟨hrole, hst⟩, hparent] at hheir
      -- The scope around the current one is named, so it takes the `end` at once.
      obtain ⟨hlt, e', he', hn⟩ := h.parent_named he hparent
      have hclosed : s.registry.respond p e' (t.role o.settings.accepts) =
          .ok (s.registry.set p e'.shut, e'.parent) := by
        rw [hrole]
        simp only [Registry.respond, hn]
      obtain ⟨notices, hd, hcount⟩ := dispatch_takes
        (s := { s with consumed := s.consumed + 1, current := p }) he' (h.arranged p e' he').intact
        hclosed
      refine ⟨_, _, dispatch_hands he₁ hi hr hp hheir hlt hd,
        .hands hrole hst hparent he' hn ?_⟩
      rw [List.countP_cons_of_pos rfl, hcount]
    · -- There is no scope around it that the token could be meant for.
      have hnone : { s with consumed := s.consumed + 1 }.heir? t = none := by
        rw [hheir]
        split
        · next hend =>
          cases hparent : e.parent with
          | none => rfl
          | some p => exact absurd ⟨hend.1, hend.2, by simp [hparent]⟩ hc
        · rfl
      exact ⟨_, _, dispatch_skips he₁ hi hr hp hnone, .skips hr (misfits_of_error hopen hr hc) rfl⟩

end Feed

end Scan

/-! ## What is closed -/

namespace Registry

/-- How many scopes are closed. -/
def closedCount (r : Registry) : Nat := r.scopes.countP Scope.isClosed

/-- From `r` to `r'`, scope `i` is closed and no other is changed.  A scope that is new is
    pending. -/
structure ClosesOne (r r' : Registry) (i : Nat) : Prop where
  closes : ∃ s, r.get? i = some s ∧ s.status = .named ∧ r'.get? i = some s.shut
  keeps : ∀ j s, j ≠ i → r.get? j = some s → r'.get? j = some s
  renews : ∀ j s, r.get? j = none → r'.get? j = some s → s.status = .pending

variable {r r' : Registry} {i c : Nat} {s s' : Scope}

/-- To shut a named scope is to close it alone. -/
private theorem closesOne_set (hs : r.get? i = some s) (hn : s.status = .named) :
    r.ClosesOne (r.set i s.shut) i where
  closes := ⟨s, hs, hn, get?_set_self (lt_size_of_get? hs) s.shut⟩
  keeps j e hj he := (get?_set_ne (Ne.symm hj) s.shut).trans he
  renews j e hj he := by
    have hlt := lt_size_of_get? he
    rw [size_set] at hlt
    rw [get?, List.getElem?_eq_none_iff] at hj
    exact absurd hlt (Nat.not_lt.mpr hj)

/-- A scope that is opened after that is a new one. -/
theorem ClosesOne.push (h : r.ClosesOne r' i) (hs : s.status = .pending) :
    r.ClosesOne (r'.push s) i where
  closes := by
    obtain ⟨e, he, hn, he'⟩ := h.closes
    exact ⟨e, he, hn, (get?_push_of_lt (lt_size_of_get? he') s).trans he'⟩
  keeps j e hj he := by
    have he' := h.keeps j e hj he
    exact (get?_push_of_lt (lt_size_of_get? he') s).trans he'
  renews j e hj he := by
    -- The scope that is not among the old ones was there before the push or is the one pushed.
    rcases get?_push_cases he with ⟨_, he⟩ | ⟨rfl, rfl⟩
    · exact h.renews j e hj he
    · exact hs

/-- Another scope in the place of `s` makes a difference by which of the two is closed. -/
private theorem closedCount_set (hs : r.get? c = some s) (s' : Scope) :
    (r.set c s').closedCount + s.isClosed.toNat = r.closedCount + s'.isClosed.toNat := by
  obtain ⟨hlt, hget⟩ := List.getElem?_eq_some_iff.mp hs
  have htoNat : ∀ b : Bool, (if b = true then 1 else 0) = b.toNat := by decide
  -- A scope that is closed has been counted.
  have hle : s.isClosed.toNat ≤ r.scopes.countP Scope.isClosed := by
    cases hc : s.isClosed with
    | false => exact Nat.zero_le _
    | true => exact List.countP_pos_iff.mpr ⟨s, List.mem_of_getElem? hs, hc⟩
  simp only [closedCount, set, List.countP_set hlt, hget, htoNat]
  omega

/-- A new scope counts if it is closed. -/
private theorem closedCount_push (r : Registry) (s : Scope) :
    (r.push s).closedCount = r.closedCount + s.isClosed.toNat := by
  cases hs : s.isClosed <;> simp [closedCount, push, List.countP_append, hs]

/-- An `end` that is taken closes a named scope, and its parent receives the next token. -/
theorem respond_closes (hs : s.status ≠ .closed) {x : Registry × Option Nat}
    (hx : r.respond c s .closes = .ok x) :
    s.status = .named ∧ x = (r.set c s.shut, s.parent) := by
  cases hst : s.status <;> simp_all [respond]

/-- A response closes a scope just when the token is an `end`. -/
private theorem closedCount_respond (hs : r.get? c = some s) (hopen : s.status ≠ .closed)
    {role : Role} {x : Registry × Option Nat} (hx : r.respond c s role = .ok x) :
    x.1.closedCount = r.closedCount + (decide (role = .closes)).toNat := by
  have hclosed : s.isClosed = false := decide_eq_false hopen
  rw [respond_eq_move hopen] at hx
  -- By the move, of which only the one that leaves the scope closes it.
  cases hmove : role.move? s.status with
  | none =>
    rw [hmove] at hx
    cases hx
  | some move =>
    have hleave := Role.eq_leave_iff hmove
    rw [hmove] at hx
    cases move with
    | stay =>
      obtain rfl := Except.ok.inj hx
      rw [decide_eq_false (by simpa using hleave)]
      rfl
    | alter =>
      obtain rfl := Except.ok.inj hx
      have hset := closedCount_set hs (role.applied s)
      rw [role.isClosed_applied hopen, hclosed] at hset
      rw [decide_eq_false (by simpa using hleave)]
      exact hset
    | descend =>
      obtain rfl := Except.ok.inj hx
      have hinner : (r.inner c).status ≠ .closed := by simp [inner]
      rw [closedCount_push, role.isClosed_applied hinner, decide_eq_false (by simpa using hleave)]
    | leave =>
      obtain rfl := Except.ok.inj hx
      have hset := closedCount_set hs s.shut
      rw [hclosed] at hset
      rw [decide_eq_true (hleave.mp rfl)]
      exact hset

end Registry

namespace Scan

/-! ## One step -/

/-- A move counts no token as skipped. -/
theorem skipped_moved (s : Scan) (x : Registry × Option Nat) : (s.moved x).skipped = s.skipped := by
  obtain ⟨registry, receiver⟩ := x
  cases receiver <;> rfl

/-- Nor does it close another scope, since the one that it may open is pending. -/
private theorem closedCount_moved (s : Scan) (x : Registry × Option Nat) :
    (s.moved x).registry.closedCount = x.1.closedCount := by
  obtain ⟨registry, receiver⟩ := x
  cases receiver with
  | some i => rfl
  | none => exact registry.closedCount_push _

/-- The scope that was closed remains the only one where the scan goes on. -/
private theorem closesOne_moved {r : Registry} {i : Nat} {x : Registry × Option Nat}
    (h : r.ClosesOne x.1 i) (s : Scan) : r.ClosesOne (s.moved x).registry i := by
  obtain ⟨registry, receiver⟩ := x
  cases receiver with
  | some j => exact h
  | none => exact h.push rfl

/-- How many scopes the token of a step was handed to: the current one, and one more for each notice
    that it was handed on. -/
def rounds (o : Options) (step : Scan × Token × Scan) : Nat :=
  match step.1.feed o step.2.1 with
  | .ok (_, notices) => notices.countP Notice.isHandOver + 1
  | .error _ => 1

/-- What a step does, where `e` is the current scope before it. -/
structure Accounts (o : Options) (e : Scope) (step : Scan × Token × Scan) : Prop where
  skips_iff : skips step = true ↔
    (step.2.1.isTagComment = true ∧ o.settings.accepts (step.2.1.tagName.getD "") = true ∧
        e.status = .awaitingName) ∨
      (step.2.1.isScopeEnd = true ∧
        (e.status = .awaitingName ∨ (e.status = .pending ∨ e.status = .tagged) ∧ e.parent = none))
  skipped_eq : step.2.2.skipped = step.1.skipped + (skips step).toNat
  unchanged : skips step = true →
    step.2.2.registry = step.1.registry ∧ step.2.2.current = step.1.current
  closesOne : step.2.1.isScopeEnd = true → skips step = false →
    ∃ i, step.1.registry.ClosesOne step.2.2.registry i ∧
      (e.status = .named ∧ i = step.1.current ∨
        (e.status = .pending ∨ e.status = .tagged) ∧ e.parent = some i)
  closed_eq : step.2.2.registry.closedCount =
    step.1.registry.closedCount + (step.2.1.isScopeEnd && !skips step).toNat
  rounds_le : rounds o step ≤ 2

end Scan

/-- The tokens whose role is to tag. -/
theorem Token.role_eq_tag_iff {accepts : String → Bool} {t : Token} {tag : Tag} :
    t.role accepts = .tag tag ↔
      t.isTagComment = true ∧ accepts (t.tagName.getD "") = true ∧ tag = t.tag := by
  have htag : t.tag.name = t.tagName.getD "" := rfl
  simp only [role, isTagComment, htag]
  cases t.kind <;> grind

/-- The tokens that do not fit, in their own words. -/
private theorem Scope.misfits_role_iff {e : Scope} {accepts : String → Bool} {t : Token} :
    e.Misfits (t.role accepts) ↔
      (t.isTagComment = true ∧ accepts (t.tagName.getD "") = true ∧ e.status = .awaitingName) ∨
        (t.isScopeEnd = true ∧
          (e.status = .awaitingName ∨
            (e.status = .pending ∨ e.status = .tagged) ∧ e.parent = none)) := by
  simp only [Misfits, Token.role_eq_tag_iff, Token.role_eq_closes_iff]
  grind

/-- What the current scope takes is no misfit. -/
private theorem Scope.not_misfits_of_ok {e : Scope} {r : Registry} {c : Nat} {role : Role}
    {x : Registry × Option Nat} (h : r.respond c e role = .ok x) : ¬e.Misfits role := by
  rintro (⟨tag, rfl, hst⟩ | ⟨rfl, hst | ⟨hst | hst, -⟩⟩) <;> simp [Registry.respond, hst] at h

namespace Scan

section Accounts

variable {o : Options} {t : Token} {s : Scan} {e : Scope}

/-- A step that is a move skips nothing. -/
private theorem skips_eq_false_of_moved (s : Scan) (t : Token) (x : Registry × Option Nat)
    (c n : Nat) : skips (s, t, { s with consumed := n, current := c }.moved x) = false := by
  simp [skips, skipped_moved]

/-- A token that the current scope takes. -/
private theorem accounts_of_takes (h : s.Coherent .skip) (he : s.currentScope? = some e)
    {x : Registry × Option Nat} {notices : List Notice}
    (hx : s.registry.respond s.current e (t.role o.settings.accepts) = .ok x)
    (hfeed : s.feed o t = .ok ({ s with consumed := s.consumed + 1 }.moved x, notices))
    (hcount : notices.countP Notice.isHandOver = 0) :
    Accounts o e (s, t, { s with consumed := s.consumed + 1 }.moved x) := by
  have hopen := h.current_status_ne he
  have hskips := skips_eq_false_of_moved s t x s.current (s.consumed + 1)
  refine ⟨?_, ?_, ?_, ?_, ?_, ?_⟩
  · rw [hskips, ← Scope.misfits_role_iff]
    simpa using Scope.not_misfits_of_ok hx
  · rw [hskips]
    exact skipped_moved _ x
  · intro hskip
    rw [hskips] at hskip
    cases hskip
  · -- An `end` that is taken closes the current scope.
    intro hend _
    rw [Token.role_eq_closes_iff.mpr hend] at hx
    obtain ⟨hn, rfl⟩ := Registry.respond_closes hopen hx
    exact ⟨s.current, closesOne_moved (x := (_, _)) (Registry.closesOne_set he hn) _,
      .inl ⟨hn, rfl⟩⟩
  · have hclosed := Registry.closedCount_respond he hopen hx
    rw [hskips, closedCount_moved, hclosed]
    simp [Token.role_eq_closes_iff]
  · simp [rounds, hfeed, hcount]

/-- A token that no scope takes. -/
private theorem accounts_of_skips {notices : List Notice}
    (hmisfits : e.Misfits (t.role o.settings.accepts)) (hfeed : s.feed o t =
      .ok ({ s with consumed := s.consumed + 1, skipped := s.skipped + 1 }, notices))
    (hcount : notices.countP Notice.isHandOver = 0) :
    Accounts o e (s, t, { s with consumed := s.consumed + 1, skipped := s.skipped + 1 }) := by
  have hskips :
      skips (s, t, { s with consumed := s.consumed + 1, skipped := s.skipped + 1 }) = true := by
    simp [skips]
  refine ⟨?_, ?_, fun _ => ⟨rfl, rfl⟩, ?_, ?_, ?_⟩
  · rw [hskips, ← Scope.misfits_role_iff]
    simpa using hmisfits
  · rw [hskips]
    rfl
  · intro _ hskip
    rw [hskips] at hskip
    cases hskip
  · simp [hskips]
  · simp [rounds, hfeed, hcount]

/-- An `end` that the scope around the current one takes. -/
private theorem accounts_of_hands {p : Nat} {e' : Scope} {notices : List Notice}
    (hrole : t.role o.settings.accepts = .closes) (hst : e.status = .pending ∨ e.status = .tagged)
    (hparent : e.parent = some p) (he' : s.registry.get? p = some e') (hn : e'.status = .named)
    (hfeed : s.feed o t = .ok ({ s with consumed := s.consumed + 1, current := p }.moved
      (s.registry.set p e'.shut, e'.parent), notices))
    (hcount : notices.countP Notice.isHandOver = 1) :
    Accounts o e (s, t, { s with consumed := s.consumed + 1, current := p }.moved
      (s.registry.set p e'.shut, e'.parent)) := by
  have hend : t.isScopeEnd = true := Token.role_eq_closes_iff.mp hrole
  have hskips := skips_eq_false_of_moved s t (s.registry.set p e'.shut, e'.parent) p
    (s.consumed + 1)
  refine ⟨?_, ?_, ?_, ?_, ?_, ?_⟩
  · -- The scope around the current one takes the `end`, so it is no misfit.
    rw [hskips, ← Scope.misfits_role_iff, Scope.Misfits, hrole]
    rcases hst with hst | hst <;> simp [hst, hparent]
  · rw [hskips]
    exact skipped_moved _ _
  · intro hskip
    rw [hskips] at hskip
    cases hskip
  · intro _ _
    exact ⟨p, closesOne_moved (x := (_, _)) (Registry.closesOne_set he' hn) _,
      .inr ⟨hst, hparent⟩⟩
  · -- One more scope is closed, as the token is an `end` that was not skipped.
    have hset := Registry.closedCount_set he' e'.shut
    rw [hskips, hend, closedCount_moved]
    simpa [Scope.isClosed, Scope.shut, hn] using hset
  · simp [rounds, hfeed, hcount]

/-- Every step of a scan that passes over tokens is accounted for. -/
private theorem feed_accounts (h : s.Coherent .skip) (he : s.currentScope? = some e)
    (hp : o.settings.policy = .skip) (t : Token) :
    ∃ next notices, s.feed o t = .ok (next, notices) ∧ Accounts o e (s, t, next) := by
  obtain ⟨next, notices, hfeed, htreats⟩ := feed_treats h he hp t
  refine ⟨next, notices, hfeed, ?_⟩
  cases htreats with
  | takes hx hcount => exact accounts_of_takes h he hx hfeed hcount
  | skips _ hmisfits hcount => exact accounts_of_skips hmisfits hfeed hcount
  | hands hrole hst hparent he' hn hcount =>
    exact accounts_of_hands hrole hst hparent he' hn hfeed hcount

end Accounts

/-! ## All tokens -/

/-- From a coherent state on, every step is accounted for, and so the counts are right at the
    end. -/
private theorem runFrom_accounts (allowed : SortedSet String) (file : Option String) {s : Scan}
    (h : s.Coherent .skip) (ts : List Token) :
    let o : Options := .under allowed file .skip
    let final := (s.runFrom o (ts.map .token)).final
    let path := stepsFrom s (s.runFrom o (ts.map .token)).visits
    (∀ step ∈ path, ∃ e, step.1.currentScope? = some e ∧ Accounts o e step) ∧
      final.skipped = s.skipped + path.countP skips ∧
      s.registry.closedCount + ts.countP Token.isScopeEnd =
        final.registry.closedCount + path.countP fun step => step.2.1.isScopeEnd && skips step := by
  intro o final path
  -- By induction on the tokens.  Each step accounts for its own share of the two sums.
  induction ts generalizing s with
  | nil => exact ⟨by simp [path, runFrom, stepsFrom], rfl, rfl⟩
  | cons t ts ih =>
    obtain ⟨e, he, -⟩ := h.current_open
    obtain ⟨next, notices, hfeed, haccounts⟩ := feed_accounts (o := o) h he rfl t
    obtain ⟨hpath, hskipped, hclosed⟩ := ih (feed_coherent (o := o) h hfeed)
    have hrun := runFrom_token_of_ok (o := o) rfl hfeed (ts.map .token)
    simp only [final, path, List.map_cons, hrun, stepsFrom]
    refine ⟨?_, ?_, ?_⟩
    · intro step hstep
      rcases List.mem_cons.mp hstep with rfl | hstep
      · exact ⟨e, he, haccounts⟩
      · exact hpath step hstep
    · have hnext : next.skipped = s.skipped + if skips (s, t, next) = true then 1 else 0 := by
        rw [haccounts.skipped_eq]
        cases skips (s, t, next) <;> rfl
      rw [hskipped, List.countP_cons]
      omega
    · -- An `end` is skipped or closes one scope.
      have hnext : next.registry.closedCount +
          (if (t.isScopeEnd && skips (s, t, next)) = true then 1 else 0) =
            s.registry.closedCount + if t.isScopeEnd = true then 1 else 0 := by
        rw [haccounts.closed_eq]
        cases t.isScopeEnd <;> cases skips (s, t, next) <;> rfl
      rw [List.countP_cons, List.countP_cons]
      dsimp only
      omega

/-- A scan of tokens that passes over those that do not fit.  It takes every token and never stops.
    It skips a token just when that is a tag of interest and the current scope awaits its name, or
    an `end` and the current scope awaits its name or is an outermost one that has no keyword yet.
    A token that is skipped changes no scope and leaves the current one current.  Every other `end`
    closes one scope, the current one if that is named and else the one around it, and so is handed
    to two scopes at most.  As many tokens are counted as skipped as there were, and there are as
    many ends as closed scopes and skipped ends. -/
theorem run_skip_accounts (allowed : SortedSet String) (file : Option String) (ts : List Token) :
    let o : Options := .under allowed file .skip
    let run := run o (ts.map .token)
    let path := steps o (ts.map .token)
    (run.fault = none ∧ path.map (·.2.1) = ts) ∧
      (∀ step ∈ path, ∃ e, step.1.currentScope? = some e ∧ Accounts o e step) ∧
      run.final.skipped = path.countP skips ∧
      ts.countP Token.isScopeEnd =
        run.final.registry.closedCount +
          path.countP fun step => step.2.1.isScopeEnd && skips step := by
  intro o run path
  obtain ⟨hfault, hvisits⟩ := runFrom_skip_completes allowed file start ts
  obtain ⟨hpath, hskipped, hclosed⟩ := runFrom_accounts allowed file (start_coherent .skip) ts
  -- Nothing is closed or skipped at the start, so the sums are those of the whole run.
  have hstart : start.registry.closedCount = 0 := by decide
  refine ⟨⟨hfault, (map_token_stepsFrom _ _).trans hvisits⟩, hpath, ?_, ?_⟩
  · exact hskipped.trans (Nat.zero_add _)
  · rw [hstart, Nat.zero_add] at hclosed
    exact hclosed

/-- The first `end` has nothing to close and is skipped.  The last one comes after a tag that
    documents nothing, and closes the module around that. -/
theorem run_skip_accounts_left_behind :
    let o : Options := .under (SortedSet.ofList ["domain"]) none .skip
    let ts := [Token.keyword "end" none none ⟨1, 1, none⟩,
      Token.keyword "module" none none ⟨2, 1, none⟩, Token.constant "Foo" ⟨2, 8, none⟩,
      Token.comment "# @domain: Billing" ⟨3, 3, none⟩, Token.keyword "end" none none ⟨4, 1, none⟩]
    (run o (ts.map .token)).final.skipped = 1 ∧
      ∃ step ∈ steps o (ts.map .token), ∃ e, step.1.currentScope? = some e ∧
        e.status = .tagged ∧ step.2.1.isScopeEnd = true ∧ skips step = false ∧
        Accounts o e step := by
  intro o ts
  obtain ⟨-, hpath, hskipped, -⟩ := run_skip_accounts (SortedSet.ofList ["domain"]) none ts
  have hsteps : (steps o (ts.map .token)).countP skips = 1 ∧
      (steps o (ts.map .token)).any (fun step => step.2.1.isScopeEnd && !skips step &&
        step.1.currentScope?.any (·.status == .tagged)) = true := by
    decide +kernel
  obtain ⟨step, hmem, hstep⟩ := List.any_eq_true.mp hsteps.2
  obtain ⟨e, he, haccounts⟩ := hpath step hmem
  simp only [he, Option.any_some, Bool.and_eq_true, Bool.not_eq_true', beq_iff_eq] at hstep
  exact ⟨hskipped.trans hsteps.1, step, hmem, e, he, hstep.2, hstep.1.1, hstep.1.2, haccounts⟩

end Scan

end ScopeTags
