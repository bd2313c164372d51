import ScopeTags.Proofs.Renumbering

/-!
# Scans one after the other

Between two outermost constructs a scan is where it was before its first token: the current scope is
a new outermost one.  What has been scanned up to there matters to the rest only for the numbers
that scopes get, so the scan of the whole is put together from the scans of the two parts.

## Key results

- `Scan.Fresh`: nothing has happened to a scope that is pending, and an outermost one is the newest
- `Scan.feed_fresh`, `Scan.Feeds.fresh`: one token keeps this, and so do all
- `Scan.mirrors_of_isBetween`: between two constructs a scan mirrors its start
- `Scan.run_append`: what that means for results
-/

namespace ScopeTags

/-! ## Pending scopes -/

namespace Role

variable {role : Role} {s : Scope}

/-- A scope that is pending after a token is as it was before. -/
private theorem applied_eq_of_pending (h : (role.applied s).status = .pending) :
    role.applied s = s := by
  cases role <;> simp_all [applied, Scope.withTag, Scope.awaiting, Scope.called]

/-- Where a token changes a scope, that is not pending afterwards. -/
private theorem applied_status_ne_pending (h : role.move? s.status = some .alter) :
    (role.applied s).status ≠ .pending := by
  cases role <;> cases hst : s.status <;>
    simp_all [move?, applied, Scope.withTag, Scope.awaiting, Scope.called]

end Role

namespace Registry

/-- Nothing has happened yet to a scope that is pending. -/
def PendingNew (r : Registry) : Prop :=
  ∀ i s, r.get? i = some s → s.status = .pending →
    s = { id := i, arena := some Scan.arena, parent := s.parent }

namespace PendingNew

variable {r : Registry} {c : Nat} {s : Scope}

/-- Another scope in some place, which is not pending. -/
theorem set (h : r.PendingNew) (hc : c < r.size) (hs : s.status ≠ .pending) :
    (r.set c s).PendingNew := by
  intro i e he hst
  rcases get?_set_cases hc he with ⟨rfl, rfl⟩ | he
  · exact absurd hst hs
  · exact h i e he hst

/-- A new scope, which is as it was made if it is pending. -/
theorem push (h : r.PendingNew) (hs : s.status = .pending →
      s = { id := r.size, arena := some Scan.arena, parent := s.parent }) :
    (r.push s).PendingNew := by
  intro i e he hst
  rcases get?_push_cases he with ⟨_, he⟩ | ⟨rfl, rfl⟩
  · exact h i e he hst
  · exact hs hst

/-- A response keeps pending scopes new. -/
theorem respond (h : r.PendingNew) (hr : r.Arranged) (hs : r.get? c = some s)
    (hopen : s.status ≠ .closed) {role : Role} {x : Registry × Option Nat}
    (hx : r.respond c s role = .ok x) : x.1.PendingNew := by
  have hc := lt_size_of_get? hs
  -- By what the current scope does: it stays, changes, opens another one or closes.
  rw [respond_eq_move hopen] at hx
  cases hmove : role.move? s.status with
  | none =>
    rw [hmove] at hx
    cases hx
  | some move =>
    rw [hmove] at hx
    cases move with
    | stay =>
      obtain rfl := Except.ok.inj hx
      exact h
    | alter =>
      obtain rfl := Except.ok.inj hx
      exact h.set hc (Role.applied_status_ne_pending hmove)
    | descend =>
      obtain rfl := Except.ok.inj hx
      -- A scope that is opened by a comment that is not accepted stays as it was made.
      refine h.push fun hst => ?_
      rw [Role.applied_eq_of_pending hst, inner_eq hr hs]
    | leave =>
      obtain rfl := Except.ok.inj hx
      exact h.set hc (by simp [Scope.shut])

end PendingNew

end Registry

namespace Scan

/-- Nothing has happened yet to a scope that is pending.  If the current one is, and is an outermost
    one, then no scope was made after it. -/
structure Fresh (s : Scan) : Prop where
  pendingNew : s.registry.PendingNew
  newest : ∀ e, s.currentScope? = some e → e.status = .pending → e.parent = none →
    s.current + 1 = s.registry.size

section Step

variable {policy : Policy} {s : Scan} {e : Scope}

/-- The scan goes on with the receiver, or with a new outermost scope. -/
private theorem fresh_moved {r : Registry} {receiver : Option Nat} (hr : r.Arranged)
    (h : r.PendingNew) (hnewest : ∀ i e, receiver = some i → r.get? i = some e →
      e.status = .pending → e.parent = none → i + 1 = r.size) (s : Scan) :
    (s.moved (r, receiver)).Fresh := by
  cases receiver with
  | some i => exact ⟨h, fun e he => hnewest i e rfl he⟩
  | none =>
    have hroot := h.push (s := { id := r.size, arena := some arena }) fun _ => rfl
    refine ⟨?_, fun _ _ _ _ => (Registry.size_enroll r none (some arena)).symm⟩
    rw [← Registry.addRoot_eq hr] at hroot
    exact hroot

/-- Where a scope is closed, the one around it is named and not pending. -/
private theorem fresh_of_leave (h : s.registry.Coherent policy s.current)
    (hfresh : s.registry.PendingNew) (he : s.currentScope? = some e) (hn : e.status = .named)
    (s' : Scan) :
    (s'.moved (s.registry.set s.current e.shut, e.parent)).Fresh := by
  have hlt := Registry.lt_size_of_get? he
  have harranged := Registry.arranged_set h.arranged hlt
    (Registry.Coherent.placed_shut (h.arranged _ e he) hn)
  refine fresh_moved harranged (hfresh.set hlt (by simp [Scope.shut])) ?_ s'
  -- The receiver is the parent, and that is named.
  intro i e' hi he' hst
  obtain ⟨hlt, outer, houter, hnamed⟩ := h.parent_named he hi
  rw [Registry.get?_set_ne (by omega), houter] at he'
  obtain rfl := Option.some.inj he'
  simp [hnamed] at hst

/-- A response leaves the scan fresh. -/
private theorem fresh_of_respond (h : s.Coherent policy) (hfresh : s.Fresh)
    (he : s.currentScope? = some e) {role : Role} {x : Registry × Option Nat}
    (hx : s.registry.respond s.current e role = .ok x) (s' : Scan) : (s'.moved x).Fresh := by
  have hopen := h.current_status_ne he
  have hlt := Registry.lt_size_of_get? he
  have hpending := hfresh.pendingNew.respond h.arranged he hopen hx
  have harranged := Registry.arranged_of_moved (Registry.Coherent.respond h he s' hx).arranged
  -- By what the current scope does: it stays, is not pending any more, opens the newest scope, or
  -- closes.
  rw [Registry.respond_eq_move hopen] at hx
  cases hmove : role.move? e.status with
  | none =>
    rw [hmove] at hx
    cases hx
  | some move =>
    rw [hmove] at hx
    cases move with
    | stay =>
      obtain rfl := Except.ok.inj hx
      refine fresh_moved harranged hpending ?_ s'
      intro i e' hi he'
      obtain rfl := Option.some.inj hi
      exact hfresh.newest e' he'
    | alter =>
      obtain rfl := Except.ok.inj hx
      refine fresh_moved harranged hpending ?_ s'
      intro i e' hi he' hst
      obtain rfl := Option.some.inj hi
      rw [Registry.get?_set_self hlt] at he'
      obtain rfl := Option.some.inj he'
      exact absurd hst (Role.applied_status_ne_pending hmove)
    | descend =>
      obtain rfl := Except.ok.inj hx
      refine fresh_moved harranged hpending ?_ s'
      intro i e' hi _ _ _
      obtain rfl := Option.some.inj hi
      exact (Registry.size_push _ _).symm
    | leave =>
      obtain rfl := Except.ok.inj hx
      obtain rfl := (Role.eq_leave_iff hmove).mp rfl
      have hn : e.status = .named := by
        cases hst : e.status <;> simp_all [Role.move?]
      exact fresh_of_leave h hfresh.pendingNew he hn s'

end Step

/-- At the start there is one scope, to which nothing has happened. -/
private theorem start_fresh : start.Fresh := by
  have hscopes : start.registry.scopes = [{ id := 0, arena := some arena }] := rfl
  refine ⟨fun i e he _ => ?_, fun _ _ _ _ => rfl⟩
  rw [Registry.get?, hscopes, List.getElem?_singleton] at he
  split at he
  · next hi =>
    obtain rfl := Option.some.inj he
    rw [hi]
    rfl
  · cases he

variable {o : Options} {s s' : Scan} {ts : List Token}

/-- Every token keeps pending scopes new. -/
theorem feed_fresh {t : Token} {notices : List Notice} (h : s.Coherent o.settings.policy)
    (hfresh : s.Fresh) (hf : s.feed o t = .ok (s', notices)) : s'.Fresh := by
  obtain ⟨e, he, ⟨x, hx, rfl⟩ | ⟨fault, _, _, rfl⟩ | ⟨p, e', hp, _, hst, hpar, he', hn, rfl⟩⟩ :=
    feed_cases h hf
  · exact fresh_of_respond h hfresh he hx _
  · exact ⟨hfresh.pendingNew, hfresh.newest⟩
  · -- The `end` is handed over to the scope around the current one.
    rw [Coherent, hp] at h
    exact fresh_of_leave (s := { s with current := p }) (h.yield he hst hpar) hfresh.pendingNew he'
      hn _

/-- A scan stays fresh over tokens one after the other. -/
theorem Feeds.fresh (h : Feeds o s ts s') (hs : s.Coherent o.settings.policy)
    (hfresh : s.Fresh) : s'.Fresh := by
  induction h with
  | nil s => exact hfresh
  | cons hfeed _ ih => exact ih (feed_coherent hs hfeed) (feed_fresh hs hfresh hfeed)

/-! ## Scans that come to their end -/

/-- Every token is counted. -/
theorem Feeds.consumed_eq (h : Feeds o s ts s') : s'.consumed = s.consumed + ts.length := by
  induction h with
  | nil s => rfl
  | cons hfeed _ ih =>
    rw [ih, consumed_feed hfeed, List.length_cons]
    omega

/-- A scan without a fault has taken all tokens. -/
private theorem feeds_of_fault_eq_none (hc : o.cancelAfter = none)
    (h : (s.runFrom o (ts.map .token)).fault = none) :
    Feeds o s ts (s.runFrom o (ts.map .token)).final := by
  -- By induction on the tokens, none of which stops the scan.
  induction ts generalizing s with
  | nil => exact .nil s
  | cons t ts ih =>
    cases hfeed : s.feed o t with
    | error fault =>
      rw [List.map_cons, runFrom_token_of_error hc hfeed] at h
      cases h
    | ok after =>
      obtain ⟨next, notices⟩ := after
      rw [List.map_cons, runFrom_token_of_ok hc hfeed] at h ⊢
      exact .cons hfeed (ih h)

/-! ## Between two constructs -/

/-- Whether the scan is outside of every construct, with nothing begun. -/
def isBetween (s : Scan) : Bool :=
  s.currentScope?.any fun e => e.status = .pending && e.parent = none

/-- Between two constructs a scan is like one that has not begun, but for what it has made and
    passed over before. -/
theorem mirrors_of_isBetween {policy : Policy} (h : s.Sound policy) (hfresh : s.Fresh)
    (hbetween : s.isBetween = true) :
    Mirrors policy s.skipped 0 (s.registry.size - 1) (fun _ => False) s.registry start s := by
  obtain ⟨e, he, hpending⟩ := (Option.any_eq_true _ _).mp hbetween
  obtain ⟨hst, hparent⟩ : e.status = .pending ∧ e.parent = none := by simpa using hpending
  have hnewest := hfresh.newest e he hst hparent
  have hnew := hfresh.pendingNew _ e he hst
  have hcurrent : s.current = shift 0 (s.registry.size - 1) start.current := by
    rw [shift_of_le (Nat.zero_le _), show start.current = 0 from rfl]
    omega
  have hone : start.registry.size = 1 := rfl
  refine ⟨start_sound policy, h,
    ⟨Nat.zero_le _, by omega, ?_, fun _ hi => hi.elim, fun _ _ _ => rfl⟩,
    hcurrent, (Nat.zero_add _).symm⟩
  -- The only scope that is there at the start has the current one for its image.
  intro i root _ hroot
  have hi := Registry.lt_size_of_get? hroot
  obtain rfl : i = start.current := by
    rw [show start.current = 0 from rfl]
    omega
  obtain rfl : ({ id := 0, arena := some arena } : Scope) = root := Option.some.inj hroot
  rw [← hcurrent, show s.registry.get? s.current = some e from he, hnew, hparent, Scope.renumber,
    ← hcurrent]
  rfl

end Scan

/-! ## Results -/

/-- The scope where all numbers are greater by `n`. -/
def Scope.shifted (n : Nat) (s : Scope) : Scope :=
  { s with id := s.id + n, parent := s.parent.map (· + n) }

/-- The result of going on with what has the result `r'`.  Its first scope is in the place of the
    last one of `r`. -/
def Result.followedBy (r r' : Result) : Result where
  registry := ⟨r.registry.scopes.dropLast ++ r'.registry.scopes.map (·.shifted (r.size - 1))⟩
  file := r.file
  tokens := r.tokens + r'.tokens
  skipped := r.skipped + r'.skipped

namespace Registry

/-- To shift all numbers is to shift from the first one on. -/
private theorem renumber_eq_shifted {i : Nat} {s : Scope} (hs : Placed i s) (n : Nat) :
    s.renumber 0 n i = s.shifted n := by
  have hshift : shift 0 n = (· + n) := funext fun j => shift_of_le (Nat.zero_le j) n
  simp [Scope.renumber, Scope.shifted, hshift, hs.id_eq]

/-- The scopes of `r`, shifted by all of their images, stand behind those that came in. -/
private theorem Mirrors.scopes_eq {n : Nat} {r₀ r r' : Registry} (hr : r.Arranged)
    (hn : n ≤ r₀.size) (h : Mirrors 0 n (fun _ => False) r₀ r r') :
    r'.scopes = r₀.scopes.take n ++ r.scopes.map (·.shifted n) := by
  have hlength : (r₀.scopes.take n).length = n := by
    rw [List.length_take]
    exact Nat.min_eq_left hn
  apply List.ext_getElem?
  intro j
  -- Number by number: those in front came in, and the others are images.
  rcases Nat.lt_or_ge j n with hj | hj
  · rw [List.getElem?_append_left (by omega), List.getElem?_take_of_lt hj]
    exact h.between j (Nat.zero_le j) (by omega)
  · rw [List.getElem?_append_right (by omega), hlength, List.getElem?_map]
    have himage : shift 0 n (j - n) = j := by
      rw [shift_of_le (Nat.zero_le _)]
      omega
    cases hs : r.scopes[j - n]? with
    | none =>
      have hsize : r'.scopes.length = r.scopes.length + n := h.size_eq
      have hnone := List.getElem?_eq_none_iff.mp hs
      rw [List.getElem?_eq_none (by omega)]
      rfl
    | some s =>
      have hscope := h.scopes (j - n) s (fun hfalse => hfalse) hs
      rw [himage, renumber_eq_shifted (hr _ s hs)] at hscope
      exact hscope

/-- Names depend on the scopes in front only. -/
private theorem path_eq_of_get?_eq {n : Nat} {r r' : Registry} (h : ∀ j < n, r'.get? j = r.get? j)
    {i : Nat} (hi : i < n) : r'.path i = r.path i := by
  induction i using Nat.strongRecOn with
  | ind i ih =>
    rw [path, path, h i hi]
    cases r.get? i with
    | none => rfl
    | some s =>
      cases hp : s.parent with
      | none => simp [hp]
      | some p =>
        by_cases hlt : p < i
        · simp only [hp, if_pos hlt, ih p hlt (by omega)]
        · simp only [hp, if_neg hlt]

/-- Qualified names depend only on the scopes in front. -/
private theorem qualifiedName_eq_of_get?_eq {n : Nat} {r r' : Registry} (hr : r.Arranged)
    (h : ∀ j < n, r'.get? j = r.get? j) {i : Nat} (hi : i < n) :
    r'.qualifiedName i = r.qualifiedName i := by
  rw [qualifiedName, qualifiedName, h i hi]
  cases hs : r.get? i with
  | none => rfl
  | some s =>
    have houter : s.parent.elim [] r'.path = s.parent.elim [] r.path := by
      cases hp : s.parent with
      | none => rfl
      | some p =>
        have hlt := (hr i s hs).parent_lt p hp
        exact path_eq_of_get?_eq h (by omega)
    simp only [houter]

end Registry

namespace Scan

/-- The result of a scan that ends in the state. -/
def resultIn (file : Option String) (s : Scan) : Result := ⟨s.registry, file, s.consumed, s.skipped⟩

section Parts

variable {allowed : SortedSet String} {file : Option String} {policy : Policy} {s : Scan}
  {ts : List Token}

/-- The result of a scan that goes on between two constructs and comes to its end. -/
private theorem resultIn_runFrom (h : s.Sound policy) (hfresh : s.Fresh)
    (hbetween : s.isBetween = true)
    (hend : (start.runFrom (.under allowed file policy) (ts.map .token)).fault = none) :
    (s.runFrom (.under allowed file policy) (ts.map .token)).final.resultIn file =
      (s.resultIn file).followedBy
        ((start.runFrom (.under allowed file policy) (ts.map .token)).final.resultIn file) := by
  have hmirrors := mirrors_of_isBetween h hfresh hbetween
  have hend' := (hmirrors.fault_eq allowed file ts).trans hend
  have hfinal := hmirrors.runFrom allowed file ts
  -- Both go through all tokens, so they count as many.
  have hcount := (feeds_of_fault_eq_none rfl hend).consumed_eq
  have hcount' := (feeds_of_fault_eq_none rfl hend').consumed_eq
  generalize (start.runFrom (.under allowed file policy) (ts.map .token)).final = last at *
  generalize (s.runFrom (.under allowed file policy) (ts.map .token)).final = last' at *
  have hscopes := hfinal.registry.scopes_eq hfinal.sound.coherent.arranged (Nat.sub_le _ 1)
  have hconsumed : last'.consumed = s.consumed + last.consumed := by
    have hstart : start.consumed = 0 := rfl
    omega
  have hskipped : last'.skipped = s.skipped + last.skipped := by
    have := hfinal.skipped_eq
    omega
  have hregistry : last'.registry =
      ((s.resultIn file).followedBy (last.resultIn file)).registry := by
    rw [Result.followedBy, List.dropLast_eq_take]
    exact congrArg Registry.mk hscopes
  rw [resultIn, hregistry, hconsumed, hskipped]
  rfl

/-- In the whole and in the parts scopes have the same qualified names. -/
theorem Mirrors.qualifiedName_eq {q n : Nat} {r₀ : Registry} {last last' : Scan}
    (h : Mirrors policy q 0 n (fun _ => False) r₀ last last') (hr₀ : r₀.Arranged) :
    (∀ i < n, last'.registry.qualifiedName i = r₀.qualifiedName i) ∧
      ∀ i, last'.registry.qualifiedName (i + n) = last.registry.qualifiedName i := by
  constructor
  · intro i hi
    -- The scopes of the first part stand in front, and names look only there.
    have hbefore : ∀ j < n, last'.registry.get? j = r₀.get? j := fun j hj =>
      h.registry.between j (Nat.zero_le j) (by omega)
    exact Registry.qualifiedName_eq_of_get?_eq hr₀ hbefore hi
  · intro i
    cases hs : last.registry.get? i with
    | none =>
      -- Both are past the last scope.
      have hsize := h.registry.size_eq
      have hlast : last.registry.size ≤ i := List.getElem?_eq_none_iff.mp hs
      have hnone : last'.registry.get? (i + n) = none :=
        List.getElem?_eq_none (show last'.registry.size ≤ i + n by omega)
      rw [Registry.qualifiedName, Registry.qualifiedName, hs, hnone]
    | some e =>
      rw [← shift_of_le (Nat.zero_le i) n]
      exact h.registry.qualifiedName_eq h.sound.coherent.arranged h.sound.parentsNamed hs
        fun hfalse => hfalse

end Parts

/-- A scan that comes between two outermost constructs goes on as if it had just begun.  It stops
    with the fault that the second part has by itself.  Where that has none, its scopes are those of
    the first part but for the last one, which was to come, and then those of the second part under
    greater numbers, and it has taken and passed over as many tokens as the two parts together.
    Qualified names are those that the scopes have in the parts. -/
theorem run_append (allowed : SortedSet String) (file : Option String) (policy : Policy)
    (ts₁ ts₂ : List Token) :
    let o : Options := .under allowed file policy
    let result? (ts : List Token) : Except Fault Result := (run o (ts.map .token)).result? o
    ∀ r₁, result? ts₁ = .ok r₁ → (run o (ts₁.map .token)).final.isBetween = true →
      result? (ts₁ ++ ts₂) = (result? ts₂).map r₁.followedBy ∧
        ∀ r₂, result? ts₂ = .ok r₂ →
          (∀ i < r₁.size - 1,
            (r₁.followedBy r₂).registry.qualifiedName i = r₁.registry.qualifiedName i) ∧
          ∀ i, (r₁.followedBy r₂).registry.qualifiedName (i + (r₁.size - 1)) =
            r₂.registry.qualifiedName i := by
  intro o result? r₁ hr₁ hbetween
  obtain ⟨hend₁, rfl⟩ := Run.result?_eq_ok_iff.mp hr₁
  have hfeeds : Feeds o start ts₁ (run o (ts₁.map .token)).final := feeds_of_fault_eq_none rfl hend₁
  generalize (run o (ts₁.map .token)).final = s at hfeeds hbetween ⊢
  have hsound : s.Sound policy := hfeeds.sound (start_sound policy)
  have hfresh : s.Fresh := hfeeds.fresh (start_coherent policy) start_fresh
  have hmirrors := mirrors_of_isBetween hsound hfresh hbetween
  -- The scan of both parts goes through the state between them.
  obtain ⟨hrun, hfault⟩ := hfeeds.runFrom_eq rfl (ts₂.map .token)
  rw [← List.map_append] at hrun hfault
  rw [hmirrors.fault_eq allowed file ts₂] at hfault
  cases hend₂ : (run o (ts₂.map .token)).fault with
  | some fault =>
    have herror : ∀ ts, (run o (ts.map .token)).fault = some fault → result? ts = .error fault := by
      intro ts hts
      simp only [result?, Run.result?, hts]
    rw [herror _ (hfault.trans hend₂), herror _ hend₂]
    exact ⟨rfl, fun r₂ hr₂ => by cases hr₂⟩
  | none =>
    have hresult : ∀ ts, (run o (ts.map .token)).fault = none →
        result? ts = .ok ((run o (ts.map .token)).final.resultIn file) := fun ts hts =>
      Run.result?_eq_ok_iff.mpr ⟨hts, rfl⟩
    have hwhole := resultIn_runFrom hsound hfresh hbetween hend₂
    have hnames := (hmirrors.runFrom allowed file ts₂).qualifiedName_eq hsound.coherent.arranged
    rw [hresult _ (hfault.trans hend₂), hresult _ hend₂]
    constructor
    · exact congrArg Except.ok ((congrArg (resultIn file) hrun).trans hwhole)
    · intro r₂ hr₂
      obtain rfl := Except.ok.inj hr₂
      have hregistry := congrArg Result.registry hwhole
      exact hregistry ▸ hnames

/-- A module with a stray `end` behind it, and then a class with a method, which are not closed. -/
theorem run_append_stray_end :
    let o : Options := .under ∅ none .skip
    let result? (ts : List Token) : Except Fault Result := (run o (ts.map .token)).result? o
    let ts₁ := [Token.keyword "module" none none ⟨1, 1, none⟩, Token.constant "Foo" ⟨1, 8, none⟩,
      Token.keyword "end" none none ⟨2, 1, none⟩, Token.keyword "end" none none ⟨3, 1, none⟩]
    let ts₂ := [Token.keyword "class" none none ⟨4, 1, none⟩, Token.constant "Bar" ⟨4, 7, none⟩,
      Token.keyword "def" none none ⟨5, 3, none⟩, Token.identifier "baz" ⟨5, 7, none⟩]
    ∃ r₁, result? ts₁ = .ok r₁ ∧ (run o (ts₁.map .token)).final.isBetween = true ∧
      result? (ts₁ ++ ts₂) = (result? ts₂).map r₁.followedBy := by
  intro o result? ts₁ ts₂
  have hfirst : (run o (ts₁.map .token)).fault = none ∧
      (run o (ts₁.map .token)).final.isBetween = true := by
    decide +kernel
  have hresult : result? ts₁ = .ok ((run o (ts₁.map .token)).final.resultIn none) :=
    Run.result?_eq_ok_iff.mpr ⟨hfirst.1, rfl⟩
  exact ⟨_, hresult, hfirst.2, (run_append ∅ none .skip ts₁ ts₂ _ hresult hfirst.2).1⟩

end Scan

end ScopeTags
