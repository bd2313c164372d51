import ScopeTags.Proofs.PassingOver

/-!
# The same scopes under other numbers

Two scans can go through the same scopes under different numbers, because one of them has made
scopes that the other has not.  `Registry.Mirrors` compares their registries: the numbers from some
place on are shifted, and every scope is what its mirror image is up to the numbers that it refers
to.  Scopes on either side may be left out of the comparison if no token can reach them any more.
`Scan.Mirrors` does the same for scans.

## Key results

- `Registry.Mirrors.respond`: registries that mirror each other respond alike, and still do so after
  that
- `Registry.Mirrors.qualifiedName_eq`: qualified names do not depend on numbers
- `Scan.Mirrors.feed`: two scans that mirror each other do the same with a token
- `Scan.Mirrors.runFrom`, `Scan.Mirrors.fault_eq`: and with all tokens that are left
-/

namespace ScopeTags

/-- The number `i` where `n` numbers come in at `k`. -/
def shift (k n i : Nat) : Nat := if i < k then i else i + n

section Shift

variable {k n i j : Nat}

/-- A number in front stays. -/
theorem shift_of_lt (h : i < k) (n : Nat) : shift k n i = i := if_pos h

/-- A number that is not in front moves on. -/
theorem shift_of_le (h : k ≤ i) (n : Nat) : shift k n i = i + n := if_neg (Nat.not_lt.mpr h)

/-- Where none comes in, all stay. -/
theorem shift_zero (k i : Nat) : shift k 0 i = i := by
  rw [shift]
  split <;> rfl

/-- The order of numbers stays. -/
private theorem shift_lt_shift (h : i < j) : shift k n i < shift k n j := by
  simp only [shift]
  split <;> split <;> omega

/-- Different numbers stay different. -/
private theorem shift_inj (h : shift k n i = shift k n j) : i = j := by
  simp only [shift] at h
  split at h <;> split at h <;> omega

/-- The numbers that come in are no shifted ones. -/
private theorem shift_ne_of_mem (hk : k ≤ j) (hj : j < k + n) : shift k n i ≠ j := by
  simp only [shift]
  split <;> omega

/-- Numbers that are chosen alike on both sides, and none of those that come in. -/
theorem filter_range_shift {m : Nat} {p p' : Nat → Bool} (hk : k ≤ m)
    (hp : ∀ i < m, p' (shift k n i) = p i) (hbetween : ∀ j, k ≤ j → j < k + n → p' j = false) :
    (List.range (m + n)).filter p' = ((List.range m).filter p).map (shift k n) := by
  obtain ⟨l, rfl⟩ := Nat.exists_eq_add_of_le hk
  -- By induction on how many numbers there are from `k` on.
  induction l with
  | zero =>
    -- Just those in front of `k`, and the ones that come in, of which none is chosen.
    have hnone : ((List.range n).map (k + ·)).filter p' = [] := by
      rw [List.filter_eq_nil_iff]
      intro j hj
      obtain ⟨i, hi, rfl⟩ := List.mem_map.mp hj
      have hi : i < n := List.mem_range.mp hi
      simp [hbetween (k + i) (by omega) (by omega)]
    have hsame : (List.range k).filter p' = (List.range k).filter p :=
      List.filter_congr fun i hi => by
        have hi : i < k := List.mem_range.mp hi
        rw [← hp i hi, shift_of_lt hi]
    rw [Nat.add_zero, List.range_add, List.filter_append, hnone, List.append_nil, hsame]
    refine (List.map_id _).symm.trans (List.map_congr_left fun i hi => ?_)
    exact (shift_of_lt (List.mem_range.mp (List.mem_filter.mp hi).1) n).symm
  | succ l ih =>
    have hlast : p' (k + l + n) = p (k + l) := by
      rw [← shift_of_le (Nat.le_add_right k l)]
      exact hp (k + l) (by omega)
    have hinit := ih (Nat.le_add_right k l) fun i hi => hp i (by omega)
    rw [show k + (l + 1) + n = k + l + n + 1 by omega, show k + (l + 1) = k + l + 1 by omega,
      List.range_succ, List.range_succ, List.filter_append, List.filter_append, List.map_append,
      hinit]
    cases hpl : p (k + l) <;> simp [hlast, hpl, shift_of_le (Nat.le_add_right k l)]

end Shift

/-- The scope of number `i` where its number and that of its parent are shifted. -/
def Scope.renumber (k n i : Nat) (s : Scope) : Scope :=
  { s with id := (shift k n i : Nat), parent := s.parent.map (shift k n) }

/-- What a token does to a scope is no matter of its number. -/
private theorem Role.applied_renumber (role : Role) (k n i : Nat) (s : Scope) :
    role.applied (s.renumber k n i) = (role.applied s).renumber k n i := by
  cases role <;> rfl

/-- A scope stays as it is if its number and those before it do. -/
private theorem Scope.renumber_eq {k n i : Nat} {s : Scope} (hs : Registry.Placed i s)
    (h : ∀ j ≤ i, shift k n j = j) : s.renumber k n i = s := by
  have hparent : s.parent.map (shift k n) = s.parent := by
    cases hp : s.parent with
    | none => rfl
    | some p => rw [Option.map_some, h p (Nat.le_of_lt (hs.parent_lt p hp))]
  rw [renumber, h i (Nat.le_refl i), hparent, ← hs.id_eq]

/-- A scope in front of the numbers that come in stays as it is. -/
theorem Scope.renumber_of_lt {k i : Nat} {s : Scope} (hs : Registry.Placed i s) (hi : i < k)
    (n : Nat) : s.renumber k n i = s :=
  renumber_eq hs fun _ hj => shift_of_lt (Nat.lt_of_le_of_lt hj hi) n

/-- A scope stays as it is where no numbers come in. -/
theorem Scope.renumber_zero {i : Nat} {s : Scope} (hs : Registry.Placed i s) (k : Nat) :
    s.renumber k 0 i = s :=
  renumber_eq hs fun j _ => shift_zero k j

namespace Registry

/-- What a scope refuses it refuses under any number and among any others. -/
private theorem respond_renumber_error {r : Registry} {c : Nat} {s : Scope} {role : Role}
    {fault : Fault} (hopen : s.status ≠ .closed) (hx : r.respond c s role = .error fault)
    (r' : Registry) (k n i : Nat) : r'.respond i (s.renumber k n c) role = .error fault := by
  have hopen' : (s.renumber k n c).status ≠ .closed := hopen
  rw [respond_eq_move hopen] at hx
  rw [respond_eq_move hopen', show (s.renumber k n c).status = s.status from rfl]
  cases hmove : role.move? s.status with
  | none =>
    rw [hmove] at hx
    exact hx
  | some move =>
    rw [hmove] at hx
    cases move <;> cases hx

/-! ## Scopes that dangle -/

/-- Scope `i` got tags at most, and the scope around it was closed. -/
def Dangles (r : Registry) (i : Nat) : Prop :=
  ∃ s p e, r.get? i = some s ∧ s.name = none ∧ (s.status = .pending ∨ s.status = .tagged) ∧
    s.parent = some p ∧ r.get? p = some e ∧ e.status = .closed

namespace Dangles

variable {r : Registry} {i c : Nat} {s s' : Scope}

/-- A scope that dangles has no name. -/
theorem not_named (h : r.Dangles i) : (r.get? i).any Scope.isNamed = false := by
  obtain ⟨s, p, e, hs, -, hst, -⟩ := h
  rw [hs]
  rcases hst with hst | hst <;> simp [Scope.isNamed, hst]

/-- Another scope that is not closed yet may change. -/
theorem set (h : r.Dangles i) (hs : r.get? c = some s) (hopen : s.status ≠ .closed) (hci : c ≠ i)
    (s' : Scope) : (r.set c s').Dangles i := by
  obtain ⟨d, p, e, hd, hname, hst, hparent, he, hclosed⟩ := h
  have hcp : c ≠ p := by
    rintro rfl
    obtain rfl := Option.some.inj (hs.symm.trans he)
    exact hopen hclosed
  exact ⟨d, p, e, (get?_set_ne hci s').trans hd, hname, hst, hparent,
    (get?_set_ne hcp s').trans he, hclosed⟩

/-- A new scope changes nothing about it. -/
theorem push (h : r.Dangles i) (s : Scope) : (r.push s).Dangles i := by
  obtain ⟨d, p, e, hd, hname, hst, hparent, he, hclosed⟩ := h
  exact ⟨d, p, e, (get?_push_of_lt (lt_size_of_get? hd) s).trans hd, hname, hst, hparent,
    (get?_push_of_lt (lt_size_of_get? he) s).trans he, hclosed⟩

/-- The scopes around the current one are not closed, so it does not dangle. -/
private theorem ne_current (h : r.Dangles i) {policy : Policy} (hr : r.Coherent policy c) :
    c ≠ i := by
  rintro rfl
  obtain ⟨s, p, e, hs, -, -, hparent, he, hclosed⟩ := h
  obtain ⟨-, e', he', hn⟩ := hr.parent_named hs hparent
  obtain rfl := Option.some.inj (he.symm.trans he')
  simp [hclosed] at hn

end Dangles

/-! ## Mirror images -/

/-- `r'` has the scopes of `r` under numbers that are shifted by `n` from `k` on, those aside that
    `left` says, which dangle on both sides.  In between it has those of `r₀`. -/
structure Mirrors (k n : Nat) (left : Nat → Prop) (r₀ r r' : Registry) : Prop where
  le_size : k ≤ r.size
  size_eq : r'.size = r.size + n
  scopes : ∀ i s, ¬left i → r.get? i = some s → r'.get? (shift k n i) = some (s.renumber k n i)
  dangles : ∀ i, left i → r.Dangles i ∧ r'.Dangles (shift k n i)
  between : ∀ j, k ≤ j → j < k + n → r'.get? j = r₀.get? j

namespace Mirrors

variable {k n c : Nat} {left : Nat → Prop} {r₀ r r' : Registry} {s s' : Scope}

/-- The next numbers correspond. -/
private theorem shift_size (h : Mirrors k n left r₀ r r') : shift k n r.size = r'.size := by
  rw [shift_of_le h.le_size, h.size_eq]

/-- A scope and its mirror image change alike. -/
theorem set (h : Mirrors k n left r₀ r r') (hc : ¬left c) (hs : r.get? c = some s)
    (hopen : s.status ≠ .closed) (s' : Scope) :
    Mirrors k n left r₀ (r.set c s') (r'.set (shift k n c) (s'.renumber k n c)) where
  le_size := by rw [size_set]; exact h.le_size
  size_eq := by rw [size_set, size_set]; exact h.size_eq
  scopes i e hi he := by
    -- The scope that is written and its image, or another one and its image.
    by_cases hci : c = i
    · subst hci
      have himage := lt_size_of_get? (h.scopes c s hc hs)
      rw [get?_set_self (lt_size_of_get? hs)] at he
      obtain rfl := Option.some.inj he
      exact get?_set_self himage _
    · rw [get?_set_ne hci] at he
      rw [get?_set_ne (fun heq => hci (shift_inj heq))]
      exact h.scopes i e hi he
  dangles i hi := by
    obtain ⟨hd, hd'⟩ := h.dangles i hi
    have hci : c ≠ i := fun heq => hc (heq ▸ hi)
    exact ⟨hd.set hs hopen hci s',
      hd'.set (h.scopes c s hc hs) hopen (fun heq => hci (shift_inj heq)) _⟩
  between j hk hj := by
    rw [get?_set_ne (shift_ne_of_mem hk hj)]
    exact h.between j hk hj

/-- A scope and its mirror image are made at the same time. -/
theorem push (h : Mirrors k n left r₀ r r') (s : Scope) :
    Mirrors k n left r₀ (r.push s) (r'.push (s.renumber k n r.size)) where
  le_size := by rw [size_push]; exact Nat.le_succ_of_le h.le_size
  size_eq := by rw [size_push, size_push, h.size_eq]; omega
  scopes i e hi he := by
    rcases get?_push_cases he with ⟨_, he⟩ | ⟨rfl, rfl⟩
    · have he' := h.scopes i e hi he
      exact (get?_push_of_lt (lt_size_of_get? he') _).trans he'
    · rw [h.shift_size]
      exact get?_push_size r' _
  dangles i hi := ⟨(h.dangles i hi).1.push s, (h.dangles i hi).2.push _⟩
  between j hk hj := by
    have hlt : j < r'.size := by
      have := h.le_size
      have := h.size_eq
      omega
    rw [get?_push_of_lt hlt]
    exact h.between j hk hj

/-- The scopes that are opened inside of a scope and inside of its mirror image. -/
theorem inner_eq (h : Mirrors k n left r₀ r r') (hr : r.Arranged) (hr' : r'.Arranged)
    (hc : ¬left c) (hs : r.get? c = some s) :
    r'.inner (shift k n c) = (r.inner c).renumber k n r.size := by
  rw [Registry.inner_eq hr' (h.scopes c s hc hs), Registry.inner_eq hr hs, Scope.renumber,
    h.shift_size]
  rfl

/-- The outermost scopes that are made last. -/
theorem addRoot (h : Mirrors k n left r₀ r r') (hr : r.Arranged) (hr' : r'.Arranged) :
    Mirrors k n left r₀ (Scan.addRoot r) (Scan.addRoot r') := by
  have hpush := h.push { id := r.size, arena := some Scan.arena }
  rw [Scope.renumber, h.shift_size] at hpush
  rw [addRoot_eq hr, addRoot_eq hr']
  exact hpush

section Respond

variable {role : Role} {x : Registry × Option Nat}

/-- What is taken here is taken by the mirror image, to the same effect. -/
theorem respond (h : Mirrors k n left r₀ r r') (hr : r.Arranged) (hr' : r'.Arranged) (hc : ¬left c)
    (hs : r.get? c = some s) (hopen : s.status ≠ .closed) (hx : r.respond c s role = .ok x) :
    ∃ x', r'.respond (shift k n c) (s.renumber k n c) role = .ok x' ∧
      x'.2 = x.2.map (shift k n) ∧ Mirrors k n left r₀ x.1 x'.1 := by
  have hopen' : (s.renumber k n c).status ≠ .closed := hopen
  rw [respond_eq_move hopen] at hx
  rw [respond_eq_move hopen', show (s.renumber k n c).status = s.status from rfl]
  -- The move is a matter of the role and of the status, which are the same.
  cases hmove : role.move? s.status with
  | none =>
    rw [hmove] at hx
    cases hx
  | some move =>
    rw [hmove] at hx
    cases move with
    | stay =>
      obtain rfl := Except.ok.inj hx
      exact ⟨_, rfl, rfl, h⟩
    | alter =>
      obtain rfl := Except.ok.inj hx
      refine ⟨_, rfl, rfl, ?_⟩
      rw [role.applied_renumber]
      exact h.set hc hs hopen _
    -- The new scopes get the next numbers on either side.
    | descend =>
      obtain rfl := Except.ok.inj hx
      refine ⟨_, rfl, ?_, ?_⟩
      · rw [Option.map_some, h.shift_size]
      · rw [h.inner_eq hr hr' hc hs, role.applied_renumber]
        exact h.push _
    | leave =>
      obtain rfl := Except.ok.inj hx
      exact ⟨_, rfl, rfl, h.set hc hs hopen s.shut⟩

end Respond

/-! ## Names -/

/-- A scope that has a name is not left out. -/
theorem not_left (h : Mirrors k n left r₀ r r') {i : Nat} (hs : r.get? i = some s)
    (hname : s.name.isSome = true) : ¬left i := by
  intro hi
  obtain ⟨s', p, e, hs', hnone, -⟩ := (h.dangles i hi).1
  obtain rfl := Option.some.inj (hs.symm.trans hs')
  rw [hnone] at hname
  cases hname

/-- The names on the way to a scope do not depend on numbers. -/
theorem path_eq (h : Mirrors k n left r₀ r r') (hr : r.Arranged) (hnamed : r.ParentsNamed) {i : Nat}
    (hs : r.get? i = some s) (hi : ¬left i) : r'.path (shift k n i) = r.path i := by
  -- Outwards from `i`: every scope around it has a name, so it is not left out.
  induction i using Nat.strongRecOn generalizing s with
  | ind i ih =>
    rw [path, path, hs, h.scopes i s hi hs]
    cases hp : s.parent with
    | none => simp [Scope.renumber, hp]
    | some p =>
      obtain ⟨e, he, hename⟩ := hnamed i s p hs hp
      have hlt := (hr i s hs).parent_lt p hp
      have houter := ih p hlt he (h.not_left he hename)
      simp only [Scope.renumber, hp, Option.map_some, if_pos hlt, if_pos (shift_lt_shift hlt),
        houter]

/-- The qualified name of a scope does not depend on the numbers. -/
theorem qualifiedName_eq (h : Mirrors k n left r₀ r r') (hr : r.Arranged) (hnamed : r.ParentsNamed)
    {i : Nat} (hs : r.get? i = some s) (hi : ¬left i) :
    r'.qualifiedName (shift k n i) = r.qualifiedName i := by
  have houter : (s.renumber k n i).parent.elim [] r'.path = s.parent.elim [] r.path := by
    cases hp : s.parent with
    | none => simp [Scope.renumber, hp]
    | some p =>
      obtain ⟨e, he, hename⟩ := hnamed i s p hs hp
      simp only [Scope.renumber, hp, Option.map_some, Option.elim_some]
      exact h.path_eq hr hnamed he (h.not_left he hename)
  simp only [qualifiedName, hs, h.scopes i s hi hs, houter]
  rfl

end Mirrors

/-- A registry is arranged if it is with one more scope. -/
theorem arranged_of_moved {r : Registry} {scan : Scan} {receiver : Option Nat}
    (h : (scan.moved (r, receiver)).registry.Arranged) : r.Arranged := by
  cases receiver with
  | some i => exact h
  | none =>
    intro i s hs
    exact h i s ((get?_enroll_of_lt (lt_size_of_get? hs) _ _).trans hs)

/-- Where no scope is left to receive tokens, both get an outermost one. -/
theorem Mirrors.moved {k n : Nat} {left : Nat → Prop} {r₀ r r' : Registry}
    (h : Mirrors k n left r₀ r r') {receiver : Option Nat} {s s' : Scan}
    (hs : (s.moved (r, receiver)).registry.Arranged)
    (hs' : (s'.moved (r', receiver.map (shift k n))).registry.Arranged) :
    Mirrors k n left r₀ (s.moved (r, receiver)).registry
        (s'.moved (r', receiver.map (shift k n))).registry ∧
      (s'.moved (r', receiver.map (shift k n))).current =
        shift k n (s.moved (r, receiver)).current := by
  cases receiver with
  | some i => exact ⟨h, rfl⟩
  | none => exact ⟨h.addRoot (arranged_of_moved hs) (arranged_of_moved hs'), h.shift_size.symm⟩

end Registry

namespace Scan

/-! ## One token -/

/-- `s'` has the scopes of `s` under shifted numbers, and the same one is current.  It has passed
    over `q` tokens more. -/
structure Mirrors (policy : Policy) (q k n : Nat) (left : Nat → Prop) (r₀ : Registry)
    (s s' : Scan) : Prop where
  sound : s.Sound policy
  sound' : s'.Sound policy
  registry : Registry.Mirrors k n left r₀ s.registry s'.registry
  current_eq : s'.current = shift k n s.current
  skipped_eq : s'.skipped = s.skipped + q

namespace Mirrors

variable {policy : Policy} {q k n : Nat} {left : Nat → Prop} {r₀ : Registry} {s s' : Scan}
  {e : Scope} {o : Options} {t : Token}

/-- The current scope is not left out. -/
private theorem not_left_current (h : Mirrors policy q k n left r₀ s s') :
    ¬left s.current := fun hleft =>
  (h.registry.dangles _ hleft).1.ne_current h.sound.coherent rfl

/-- The current scopes are mirror images. -/
theorem currentScope? (h : Mirrors policy q k n left r₀ s s') (he : s.currentScope? = some e) :
    s'.currentScope? = some (e.renumber k n s.current) := by
  rw [Scan.currentScope?, h.current_eq]
  exact h.registry.scopes _ e h.not_left_current he

/-- Every scope of the mirror image is as it should be. -/
theorem intact (h : Mirrors policy q k n left r₀ s s') {i : Nat}
    (he : s'.registry.get? i = some e) : e.Intact :=
  (h.sound'.coherent.arranged i e he).intact

/-- Once both have taken a token they still mirror each other if their registries do. -/
private theorem of_moved (h : Mirrors policy q k n left r₀ s s') (hp : o.settings.policy = policy)
    {c c' : Nat} {r r' : Registry} {receiver : Option Nat} {notices notices' : List Notice}
    (hfeed : s.feed o t =
      .ok ({ s with consumed := s.consumed + 1, current := c }.moved (r, receiver), notices))
    (hfeed' : s'.feed o t = .ok ({ s' with consumed := s'.consumed + 1, current := c' }.moved
      (r', receiver.map (shift k n)), notices'))
    (hmirrors : Registry.Mirrors k n left r₀ r r') :
    ∃ next next' notices notices', s.feed o t = .ok (next, notices) ∧
      s'.feed o t = .ok (next', notices') ∧ Mirrors policy q k n left r₀ next next' := by
  have hsound := feed_sound (o := o) (hp ▸ h.sound) hfeed
  have hsound' := feed_sound (o := o) (hp ▸ h.sound') hfeed'
  rw [hp] at hsound hsound'
  obtain ⟨hregistry, hcurrent⟩ := hmirrors.moved hsound.coherent.arranged
    hsound'.coherent.arranged
  refine ⟨_, _, notices, notices', hfeed, hfeed', hsound, hsound', hregistry, hcurrent, ?_⟩
  rw [skipped_moved, skipped_moved]
  exact h.skipped_eq

/-- Both take a token that fits, to the same effect. -/
theorem feed_of_ok (h : Mirrors policy q k n left r₀ s s') (he : s.currentScope? = some e)
    (hp : o.settings.policy = policy) {x : Registry × Option Nat}
    (hx : s.registry.respond s.current e (t.role o.settings.accepts) = .ok x) :
    ∃ next next' notices notices', s.feed o t = .ok (next, notices) ∧
      s'.feed o t = .ok (next', notices') ∧ Mirrors policy q k n left r₀ next next' := by
  have harranged := h.sound.coherent.arranged
  have he' := h.currentScope? he
  obtain ⟨⟨r', receiver'⟩, hx', hreceiver, hmirrors⟩ := h.registry.respond harranged
    h.sound'.coherent.arranged h.not_left_current he (h.sound.coherent.current_status_ne he) hx
  obtain ⟨r, receiver⟩ := x
  obtain rfl : receiver' = receiver.map (shift k n) := hreceiver
  rw [← h.current_eq] at hx'
  obtain ⟨notices, hfeed⟩ := dispatch_of_ok (s := { s with consumed := s.consumed + 1 }) he
    (harranged _ e he).intact hx
  obtain ⟨notices', hfeed'⟩ := dispatch_of_ok (s := { s' with consumed := s'.consumed + 1 }) he'
    (h.intact he') hx'
  exact h.of_moved hp hfeed hfeed' hmirrors

/-- Both hand an `end` that the current scope cannot take to the scope around it. -/
theorem feed_of_heir (h : Mirrors .skip q k n left r₀ s s') (he : s.currentScope? = some e)
    (hp : o.settings.policy = .skip) (hrole : t.role o.settings.accepts = .closes)
    (hst : e.status = .pending ∨ e.status = .tagged) {p : Nat} (hparent : e.parent = some p) :
    ∃ next next' notices notices', s.feed o t = .ok (next, notices) ∧
      s'.feed o t = .ok (next', notices') ∧ Mirrors .skip q k n left r₀ next next' := by
  have harranged := h.sound.coherent.arranged
  have he₁ := h.currentScope? he
  obtain ⟨hlt, e', he', hn⟩ := h.sound.coherent.parent_named he hparent
  have hname : e'.name.isSome = true := (harranged p e' he').name_iff.mpr (.inl hn)
  -- The scope around the current one has a name, so its mirror image is there.
  have hleft : ¬left p := h.registry.not_left he' hname
  have himage := h.registry.scopes p e' hleft he'
  have hlt' : shift k n p < s'.current := by
    rw [h.current_eq]
    exact shift_lt_shift hlt
  obtain ⟨notices, hfeed⟩ := Scan.feed_of_heir he (harranged _ e he).intact hp hrole hst hparent hlt
    he' (harranged p e' he').intact hn
  obtain ⟨notices', hfeed'⟩ := Scan.feed_of_heir he₁ (h.intact he₁) hp hrole hst
    (show (e.renumber k n s.current).parent = some (shift k n p) by simp [Scope.renumber, hparent])
    hlt' himage (h.intact himage) hn
  exact h.of_moved hp hfeed hfeed' (h.registry.set hleft he' (by simp [hn]) e'.shut)

/-- Both pass over a token that no scope can take. -/
theorem feed_of_misfit (h : Mirrors .skip q k n left r₀ s s') (he : s.currentScope? = some e)
    (hp : o.settings.policy = .skip) {fault : Fault}
    (hx : s.registry.respond s.current e (t.role o.settings.accepts) = .error fault)
    (hno : ¬(t.role o.settings.accepts = .closes ∧
      (e.status = .pending ∨ e.status = .tagged) ∧ e.parent.isSome = true)) :
    ∃ next next' notices notices', s.feed o t = .ok (next, notices) ∧
      s'.feed o t = .ok (next', notices') ∧ Mirrors .skip q k n left r₀ next next' := by
  -- The current scopes are images of each other, so both refuse the token.
  have he' := h.currentScope? he
  have hx' := Registry.respond_renumber_error (h.sound.coherent.current_status_ne he) hx s'.registry
    k n s'.current
  obtain ⟨notices, hfeed⟩ := Scan.feed_of_misfit he (h.sound.coherent.arranged _ e he).intact hp hx
    hno
  obtain ⟨notices', hfeed'⟩ := Scan.feed_of_misfit he' (h.intact he') hp hx'
    (by simpa [Scope.renumber] using hno)
  have hsound := feed_sound (o := o) (hp ▸ h.sound) hfeed
  have hsound' := feed_sound (o := o) (hp ▸ h.sound') hfeed'
  rw [hp] at hsound hsound'
  have hskipped : s'.skipped + 1 = s.skipped + 1 + q := by
    have := h.skipped_eq
    omega
  exact ⟨_, _, notices, notices', hfeed, hfeed', hsound, hsound', h.registry, h.current_eq,
    hskipped⟩

/-- Both do the same with a token: they go on, or they stop with the same fault. -/
theorem feed (h : Mirrors policy q k n left r₀ s s') (hp : o.settings.policy = policy) (t : Token) :
    (∃ next next' notices notices', s.feed o t = .ok (next, notices) ∧
      s'.feed o t = .ok (next', notices') ∧ Mirrors policy q k n left r₀ next next') ∨
      ∃ fault, s.feed o t = .error fault ∧ s'.feed o t = .error fault := by
  obtain ⟨e, he, hopen⟩ := h.sound.coherent.current_open
  -- The token fits on both sides or on none.
  cases hx : s.registry.respond s.current e (t.role o.settings.accepts) with
  | ok x => exact .inl (h.feed_of_ok he hp hx)
  | error fault =>
    cases policy with
    | raise =>
      -- The fault says the status of the current scope, and not its number.
      have he' := h.currentScope? he
      have hx' := Registry.respond_renumber_error hopen hx s'.registry k n s'.current
      have hi := (h.sound.coherent.arranged _ e he).intact
      exact .inr ⟨_, dispatch_of_raise (s := { s with consumed := s.consumed + 1 }) he hi hx hp,
        dispatch_of_raise (s := { s' with consumed := s'.consumed + 1 }) he' (h.intact he') hx' hp⟩
    | skip =>
      by_cases hheir : t.role o.settings.accepts = .closes ∧
          (e.status = .pending ∨ e.status = .tagged) ∧ e.parent.isSome = true
      · obtain ⟨hrole, hst, hparent⟩ := hheir
        obtain ⟨p, hparent⟩ := Option.isSome_iff_exists.mp hparent
        exact .inl (h.feed_of_heir he hp hrole hst hparent)
      · exact .inl (h.feed_of_misfit he hp hx hheir)

/-! ## All tokens -/

/-- Two states mirror each other over all tokens, up to one that stops both. -/
theorem runFrom (h : Mirrors policy q k n left r₀ s s') (allowed : SortedSet String)
    (file : Option String) (ts : List Token) :
    Mirrors policy q k n left r₀ (s.runFrom (.under allowed file policy) (ts.map .token)).final
      (s'.runFrom (.under allowed file policy) (ts.map .token)).final := by
  -- By induction on the tokens.
  induction ts generalizing s s' with
  | nil => exact h
  | cons t ts ih =>
    rcases h.feed (o := .under allowed file policy) rfl t with
      ⟨next, next', _, _, hfeed, hfeed', hnext⟩ | ⟨fault, hfeed, hfeed'⟩
    · rw [List.map_cons, runFrom_token_of_ok rfl hfeed, runFrom_token_of_ok rfl hfeed']
      exact ih hnext
    · rw [List.map_cons, runFrom_token_of_error rfl hfeed, runFrom_token_of_error rfl hfeed']
      exact h

/-- The fault that stops two states which mirror each other is the same. -/
theorem fault_eq (h : Mirrors policy q k n left r₀ s s') (allowed : SortedSet String)
    (file : Option String) (ts : List Token) :
    (s'.runFrom (.under allowed file policy) (ts.map .token)).fault =
      (s.runFrom (.under allowed file policy) (ts.map .token)).fault := by
  induction ts generalizing s s' with
  | nil => rfl
  | cons t ts ih =>
    rcases h.feed (o := .under allowed file policy) rfl t with
      ⟨next, next', _, _, hfeed, hfeed', hnext⟩ | ⟨fault, hfeed, hfeed'⟩
    · rw [List.map_cons, runFrom_token_of_ok rfl hfeed, runFrom_token_of_ok rfl hfeed']
      exact ih hnext
    · rw [List.map_cons, runFrom_token_of_error rfl hfeed, runFrom_token_of_error rfl hfeed']

end Mirrors

end Scan

end ScopeTags
