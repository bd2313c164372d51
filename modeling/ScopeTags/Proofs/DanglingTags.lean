import ScopeTags.Proofs.Outline
import ScopeTags.Proofs.Renumbering
import ScopeTags.Proofs.TagFiltering

/-!
# Tags that document nothing

A tag comment that stands right before the `end` of a construct documents nothing.  Where tokens are
passed over, the scope that was opened for it is left behind, and the `end` closes the construct all
the same.  From there on the scan goes through the same scopes as if the comment were not there,
only that one scope more may have been made, which shifts the numbers of those that come after it.

## Key results

- `Scan.exists_mirrors`: the two scans mirror each other after the `end`
- `Scan.run_dangling_tags`: what that means for results
-/

namespace ScopeTags

namespace Registry

variable {r r' : Registry}

/-- A scope that dangles does so as long as it stays as it is. -/
private theorem Dangles.of_precedes {i : Nat} (h : r.Dangles i) (hle : r.Precedes r')
    (hkept : r'.get? i = r.get? i) : r'.Dangles i := by
  obtain ⟨s, p, e, hs, hname, hst, hparent, he, hclosed⟩ := h
  obtain ⟨e', he', hle⟩ := hle p e he
  obtain rfl := hle.closed_eq hclosed
  exact ⟨s, p, e', hkept.trans hs, hname, hst, hparent, he', hclosed⟩

end Registry

/-! ## Tag comments before an `end` -/

namespace Scope

variable {s : Scope}

/-- Comments before the keyword change nothing of a scope but its tags and its status, and leave it
    pending or tagged. -/
private theorem documented_unnamed (hst : s.status = .pending ∨ s.status = .tagged)
    (accepts : String → Bool) (d : List Token) :
    ((s.documented accepts d).status = .pending ∨ (s.documented accepts d).status = .tagged) ∧
      (s.documented accepts d).parent = s.parent ∧ (s.documented accepts d).name = s.name ∧
      (s.documented accepts d).frozen = s.frozen := by
  -- By induction on the comments; each of them adds a tag or does nothing.
  induction d generalizing s with
  | nil => exact ⟨hst, rfl, rfl, rfl⟩
  | cons t d ih =>
    by_cases ht : t.documents accepts = true
    · rw [documented_cons_of_pos ht]
      exact ih (.inr rfl)
    · rw [documented_cons_of_neg ht]
      exact ih hst

end Scope

namespace Registry

variable {r : Registry} {c : Nat} {s : Scope} {t : Token}

/-- A tag comment documents a scope that has no keyword yet. -/
private theorem respond_of_isTagComment (hs : r.get? c = some s)
    (hst : s.status = .pending ∨ s.status = .tagged) (ht : t.isTagComment = true)
    (accepts : String → Bool) :
    r.respond c s (t.role accepts) = .ok (r.set c (s.documented accepts [t]), some c) := by
  rw [Token.role_of_isTagComment _ ht]
  by_cases ha : accepts t.tag.name = true
  · have hd : t.documents accepts = true := by simp [Token.documents, ht, ha]
    rw [if_pos ha, respond_tag_of_unnamed hst, Scope.documented_cons_of_pos hd]
    rfl
  · have hd : ¬t.documents accepts = true := by simp [Token.documents, ha]
    have hne : s.status ≠ .named := by rcases hst with hst | hst <;> simp [hst]
    rw [if_neg ha, respond_drop_of_ne hne, Scope.documented_cons_of_neg hd]
    exact congrArg (fun r => Except.ok (r, some c)) (set_get? hs).symm

/-- Inside of a named scope it opens the scope that it documents. -/
private theorem respond_of_isTagComment_inside (hn : s.status = .named) (ht : t.isTagComment = true)
    (accepts : String → Bool) :
    r.respond c s (t.role accepts) =
      .ok (r.push ((r.inner c).documented accepts [t]), some r.size) := by
  rw [Token.role_of_isTagComment _ ht]
  by_cases ha : accepts t.tag.name = true
  · have hd : t.documents accepts = true := by simp [Token.documents, ht, ha]
    rw [if_pos ha, Scope.documented_cons_of_pos hd]
    simp only [respond, hn]
    rfl
  · have hd : ¬t.documents accepts = true := by simp [Token.documents, ha]
    rw [if_neg ha, Scope.documented_cons_of_neg hd]
    simp only [respond, hn]
    rfl

/-- Changes in different places may be made in either order. -/
private theorem set_comm_of_ne {c' : Nat} (hc : c ≠ c') (s s' : Scope) :
    (r.set c s).set c' s' = (r.set c' s').set c s := by
  simp only [set, List.set_comm s s' hc]

/-- A change and a new scope may come in either order. -/
private theorem set_push_of_lt (hc : c < r.size) (s s' : Scope) :
    (r.push s').set c s = (r.set c s).push s' := by
  simp only [push, set, List.set_append_left c s hc]

end Registry

namespace Scan

section Tags

variable {o : Options} {r : Registry} {c : Nat} {s : Scope} {d : List Token}

/-- Tag comments document a scope without a keyword, one after the other. -/
theorem leads_tags (hs : r.get? c = some s) (hst : s.status = .pending ∨ s.status = .tagged)
    (hf : s.frozen = false) (hd : ∀ t ∈ d, t.isTagComment = true) :
    Leads o r c d (r.set c (s.documented o.settings.accepts d)) c := by
  induction d generalizing r s with
  | nil =>
    rw [show s.documented o.settings.accepts [] = s from rfl, Registry.set_get? hs]
    exact .nil o r c
  | cons t d ih =>
    have hopen : s.status ≠ .closed := by rcases hst with hst | hst <;> simp [hst]
    have hstep := Leads.step hs (Scope.intact_of_not_frozen hf hopen)
      (Registry.respond_of_isTagComment hs hst (hd t List.mem_cons_self) o.settings.accepts)
    -- The rest of the comments documents the scope as this one leaves it.
    obtain ⟨hst', -, -, hf'⟩ := Scope.documented_unnamed hst o.settings.accepts [t]
    have hrest := ih (Registry.get?_set_self (Registry.lt_size_of_get? hs) _) hst'
      (hf'.trans hf) fun u hu => hd u (List.mem_cons_of_mem t hu)
    rw [Registry.set_set] at hrest
    exact hstep.append hrest

/-- Inside of a named scope the first one opens a scope, which all of them document. -/
theorem leads_tags_inside (hs : r.get? c = some s) (hi : s.Intact) (hn : s.status = .named)
    {t : Token} (hd : ∀ u ∈ t :: d, u.isTagComment = true) :
    Leads o r c (t :: d) (r.push ((r.inner c).documented o.settings.accepts (t :: d))) r.size := by
  have hstep := Leads.step hs hi
    (Registry.respond_of_isTagComment_inside hn (hd t List.mem_cons_self) o.settings.accepts)
  obtain ⟨hst', -, -, hf'⟩ := Scope.documented_unnamed (s := r.inner c) (.inl rfl)
    o.settings.accepts [t]
  have hrest := leads_tags (o := o) (r.get?_push_size _) hst' hf' fun u hu =>
    hd u (List.mem_cons_of_mem t hu)
  rw [Registry.set_push_size] at hrest
  exact hstep.append hrest

end Tags

end Scan

/-! ## After the `end` -/

namespace Registry

variable {r : Registry} {c p : Nat} {s e x : Scope}

/-- It makes no difference to a scope that dangles where the scan goes on. -/
theorem Dangles.moved {i : Nat} {y : Registry × Option Nat} (h : y.1.Dangles i) (scan : Scan) :
    (scan.moved y).registry.Dangles i := by
  obtain ⟨registry, receiver⟩ := y
  cases receiver with
  | some j => exact h
  | none => exact h.push _

/-- A scope without a keyword is left behind in a scope that is closed. -/
private theorem dangles_of_shut (hs : r.get? c = some s) (hname : s.name = none)
    (hst : s.status = .pending ∨ s.status = .tagged) (hp : s.parent = some p)
    (he : r.get? p = some e) (hpc : p ≠ c) : (r.set p e.shut).Dangles c :=
  ⟨s, p, e.shut, (get?_set_ne hpc _).trans hs, hname, hst, hp,
    get?_set_self (lt_size_of_get? he) _, rfl⟩

/-- A scope without a keyword has no name. -/
private theorem name_eq_none (hs : Placed c s) (hst : s.status = .pending ∨ s.status = .tagged) :
    s.name = none := by
  rw [← Option.not_isSome_iff_eq_none, hs.name_iff]
  rcases hst with hst | hst <;> simp [hst]

/-- A registry mirrors itself. -/
private theorem mirrors_refl (h : r.Arranged) : Mirrors 0 0 (fun _ => False) r r r where
  le_size := Nat.zero_le _
  size_eq := rfl
  scopes i e _ he := by rw [shift_zero, Scope.renumber_zero (h i e he), he]
  dangles i hi := hi.elim
  between _ _ _ := rfl

/-- One registry has a scope more than the other. -/
private theorem mirrors_push (h : r.Arranged) (x : Scope) :
    Mirrors r.size 1 (fun _ => False) (r.push x) r (r.push x) where
  le_size := Nat.le_refl _
  size_eq := size_push r x
  scopes i e _ he := by
    have hlt := lt_size_of_get? he
    rw [shift_of_lt hlt, Scope.renumber_of_lt (h i e he) hlt, get?_push_of_lt hlt, he]
  dangles i hi := hi.elim
  between _ _ _ := rfl

/-- The registries have different scopes of number `c`. -/
private theorem mirrors_set (h : r.Arranged) (hd : r.Dangles c) (hd' : (r.set c x).Dangles c) :
    Mirrors 0 0 (· = c) (r.set c x) r (r.set c x) where
  le_size := Nat.zero_le _
  size_eq := size_set r c x
  scopes i e hi he := by
    rw [shift_zero, Scope.renumber_zero (h i e he), get?_set_ne (Ne.symm hi), he]
  dangles i hi := by
    subst hi
    rw [shift_zero]
    exact ⟨hd, hd'⟩
  between _ _ _ := rfl

end Registry

namespace Scan

variable {o : Options} {s next : Scan} {e : Token} {ec ep : Scope} {d : List Token}
  {notices : List Notice}

/-- After the tag comments the current scope has no keyword, and the `end` is handed on to the scope
    around it.  The scans mirror each other after the `end` if the scopes do. -/
private theorem exists_mirrors_of_handed {k n p c m q : Nat} {left : Nat → Prop}
    {r₀ r r' : Registry} {x : Scope} {s₀ : Scan} (hp : o.settings.policy = .skip)
    (h : s.Sound .skip) (hrole : e.role o.settings.accepts = .closes)
    (htags : Feeds o s d ⟨r', c, m, q⟩) (hx : r'.get? c = some x)
    (hst : x.status = .pending ∨ x.status = .tagged) (hparent : x.parent = some p)
    (hep : r'.get? p = some ep) (hn : ep.status = .named)
    (hnext : (s₀.moved (r, ep.parent)).Sound .skip) (hskipped : q = s₀.skipped)
    (hmirrors : Registry.Mirrors k n left r₀ r (r'.set p ep.shut))
    (hreceiver : ep.parent.map (shift k n) = ep.parent) :
    ∃ s', Feeds o s (d ++ [e]) s' ∧ (∀ i, (r'.set p ep.shut).Dangles i → s'.registry.Dangles i) ∧
      Mirrors .skip 0 k n left s'.registry (s₀.moved (r, ep.parent)) s' := by
  have harranged := (hp ▸ htags.sound (hp ▸ h)).coherent.arranged
  -- The current scope cannot be closed, so its parent gets the `end` and is closed.
  obtain ⟨notices, hfeed⟩ := feed_of_heir (t := e) (s := ⟨r', c, m, q⟩) hx
    (harranged c x hx).intact hp hrole hst hparent ((harranged c x hx).parent_lt p hparent) hep
    (harranged p ep hep).intact hn
  have hfeeds := htags.append (.single hfeed)
  have hsound := hfeeds.sound (hp ▸ h)
  rw [hp] at hsound
  have hmoved := hmirrors.moved hnext.coherent.arranged (hreceiver.symm ▸ hsound.coherent.arranged)
  rw [hreceiver] at hmoved
  obtain ⟨hregistry, hcurrent⟩ := hmoved
  refine ⟨_, hfeeds, fun i hi => hi.moved _, hnext, hsound,
    { hregistry with between := fun _ _ _ => rfl }, hcurrent, ?_⟩
  rw [skipped_moved, skipped_moved]
  exact hskipped

/-- Tag comments stand before the `end` of the current scope, which is named.  They open a scope
    inside of it. -/
private theorem exists_mirrors_inside (hp : o.settings.policy = .skip) (h : s.Sound .skip)
    (hrole : e.role o.settings.accepts = .closes) {t : Token}
    (hd : ∀ u ∈ t :: d, u.isTagComment = true) (hec : s.registry.get? s.current = some ec)
    (hn : ec.status = .named)
    (hnext : ({ s with consumed := s.consumed + 1 }.moved
      (s.registry.set s.current ec.shut, ec.parent)).Sound .skip) :
    ∃ s', Feeds o s ((t :: d) ++ [e]) s' ∧ s'.registry.Dangles s.registry.size ∧
      Mirrors .skip 0 s.registry.size 1 (fun _ => False) s'.registry
        ({ s with consumed := s.consumed + 1 }.moved
          (s.registry.set s.current ec.shut, ec.parent)) s' := by
  have hlt := Registry.lt_size_of_get? hec
  have hplaced := h.coherent.arranged _ ec hec
  -- The scope that is opened has got tags at most.
  obtain ⟨x, hx⟩ : ∃ x, x = (s.registry.inner s.current).documented o.settings.accepts (t :: d) :=
    ⟨_, rfl⟩
  obtain ⟨hst, hparent, hname, -⟩ := Scope.documented_unnamed
    (s := s.registry.inner s.current) (.inl rfl) o.settings.accepts (t :: d)
  have htags := leads_tags_inside (o := o) hec hplaced.intact hn hd s.consumed s.skipped
  rw [← hx] at hst hparent hname htags
  have hec' : (s.registry.push x).get? s.current = some ec :=
    (Registry.get?_push_of_lt hlt x).trans hec
  have hdangles := Registry.dangles_of_shut (s.registry.get?_push_size x) hname hst hparent hec'
    (Nat.ne_of_lt hlt)
  have hmirrors := Registry.mirrors_push (Registry.arranged_of_moved hnext.coherent.arranged) x
  rw [← Registry.set_push_of_lt hlt, Registry.size_set] at hmirrors
  -- The scopes around it are in front of it, so that their numbers stay.
  have hreceiver : ec.parent.map (shift s.registry.size 1) = ec.parent :=
    congrArg Scope.parent (Scope.renumber_of_lt hplaced hlt 1)
  obtain ⟨s', hfeeds, hkept, hs'⟩ := exists_mirrors_of_handed hp h hrole htags
    (s.registry.get?_push_size x) hst hparent hec' hn hnext rfl hmirrors hreceiver
  exact ⟨s', hfeeds, hkept _ hdangles, hs'⟩

/-- They stand before an `end` that is handed on to the scope around the current one.  They document
    the current one, which is left behind either way. -/
private theorem exists_mirrors_handed (hp : o.settings.policy = .skip) (h : s.Sound .skip)
    (hrole : e.role o.settings.accepts = .closes) (hd : ∀ u ∈ d, u.isTagComment = true)
    (hec : s.registry.get? s.current = some ec) (hst : ec.status = .pending ∨ ec.status = .tagged)
    {p : Nat} (hparent : ec.parent = some p) (hep : s.registry.get? p = some ep)
    (hn : ep.status = .named)
    (hnext : ({ s with consumed := s.consumed + 1, current := p }.moved
      (s.registry.set p ep.shut, ep.parent)).Sound .skip) :
    ∃ s', Feeds o s (d ++ [e]) s' ∧
      Mirrors .skip 0 0 0 (· = s.current) s'.registry
        ({ s with consumed := s.consumed + 1, current := p }.moved
          (s.registry.set p ep.shut, ep.parent)) s' := by
  have hplaced := h.coherent.arranged _ ec hec
  have hpc : p < s.current := hplaced.parent_lt p hparent
  have hname : ec.name = none := Registry.name_eq_none hplaced hst
  have hf : ec.frozen = false := by
    rw [← Bool.not_eq_true, show ec.frozen = true ↔ ec.status = .closed from hplaced.intact]
    rcases hst with hst | hst <;> simp [hst]
  obtain ⟨x, hx⟩ : ∃ x, x = ec.documented o.settings.accepts d := ⟨_, rfl⟩
  obtain ⟨hst', hparent', hname', -⟩ := Scope.documented_unnamed hst o.settings.accepts d
  have htags := leads_tags (o := o) hec hst hf hd s.consumed s.skipped
  rw [← hx] at hst' hparent' hname' htags
  have hself : (s.registry.set s.current x).get? s.current = some x :=
    Registry.get?_set_self (Registry.lt_size_of_get? hec) x
  have hep' : (s.registry.set s.current x).get? p = some ep :=
    (Registry.get?_set_ne (Nat.ne_of_gt hpc) x).trans hep
  -- The current scope dangles after the `end`, with the tags and without them.
  have hdangles := Registry.dangles_of_shut hec hname hst hparent hep (Nat.ne_of_lt hpc)
  have hdangles' := Registry.dangles_of_shut hself (hname'.trans hname) hst'
    (hparent'.trans hparent) hep' (Nat.ne_of_lt hpc)
  rw [Registry.set_comm_of_ne (Nat.ne_of_gt hpc)] at hdangles'
  have hmirrors :=
    Registry.mirrors_set (Registry.arranged_of_moved hnext.coherent.arranged) hdangles hdangles'
  rw [← Registry.set_comm_of_ne (Nat.ne_of_gt hpc)] at hmirrors
  have hreceiver : ep.parent.map (shift 0 0) = ep.parent :=
    congrArg Scope.parent (Scope.renumber_zero (h.coherent.arranged _ ep hep) 0)
  obtain ⟨s', hfeeds, -, hs'⟩ := exists_mirrors_of_handed hp h hrole htags hself hst'
    (hparent'.trans hparent) hep' hn hnext rfl hmirrors hreceiver
  exact ⟨s', hfeeds, hs'⟩

/-- After an `end` that is not skipped the scan mirrors the one that has read tag comments in front
    of it.  That one has made one scope more at most, which dangles. -/
theorem exists_mirrors (hp : o.settings.policy = .skip) (h : s.Sound .skip)
    (he : e.isScopeEnd = true) (hd : ∀ t ∈ d, t.isTagComment = true)
    (hfeed : s.feed o e = .ok (next, notices)) (hskip : skips (s, e, next) = false) :
    ∃ s' k n left, Feeds o s (d ++ [e]) s' ∧ n ≤ 1 ∧
      (∀ j, k ≤ j → j < k + n → s'.registry.Dangles j) ∧
      Mirrors .skip 0 k n left s'.registry next s' := by
  have hrole : e.role o.settings.accepts = .closes := Token.role_eq_closes_iff.mpr he
  have hsound := feed_sound (o := o) (hp ▸ h) hfeed
  rw [hp] at hsound
  obtain ⟨ec, hec, -⟩ := h.coherent.current_open
  obtain ⟨next', notices', hfeed', htreats⟩ := feed_treats h.coherent hec hp e
  obtain ⟨rfl, rfl⟩ := Prod.mk.inj (Except.ok.inj (hfeed.symm.trans hfeed'))
  -- The `end` closes the current scope or the one around it.
  cases htreats with
  | @takes x _ hx _ =>
    rw [hrole] at hx
    obtain ⟨hn, rfl⟩ := Registry.respond_closes (h.coherent.current_status_ne hec) hx
    cases d with
    | nil =>
      exact ⟨_, 0, 0, fun _ => False, .single hfeed, by omega, fun j _ _ => by omega, hsound,
        hsound, Registry.mirrors_refl hsound.coherent.arranged, (shift_zero 0 _).symm, rfl⟩
    | cons t d =>
      obtain ⟨s', hfeeds, hdangles, hs'⟩ := exists_mirrors_inside hp h hrole hd hec hn hsound
      refine ⟨s', _, 1, _, hfeeds, Nat.le_refl 1, fun j hk hj => ?_, hs'⟩
      obtain rfl : j = s.registry.size := by omega
      exact hdangles
  | skips _ _ _ =>
    exact absurd hskip (by simp [skips])
  | hands _ hst hparent hep hn _ =>
    obtain ⟨s', hfeeds, hs'⟩ := exists_mirrors_handed hp h hrole hd hec hst hparent hep hn hsound
    exact ⟨s', 0, 0, _, hfeeds, by omega, fun j _ _ => by omega, hs'⟩

/-! ## Results -/

/-- Where tokens are passed over, all of them are fed. -/
private theorem exists_feeds (hp : o.settings.policy = .skip) (s : Scan) (ts : List Token) :
    ∃ s', Feeds o s ts s' := by
  induction ts generalizing s with
  | nil => exact ⟨s, .nil s⟩
  | cons t ts ih =>
    cases hfeed : s.feed o t with
    | error fault => exact absurd hfeed (dispatch_skip_ne_error hp t _ _)
    | ok after =>
      obtain ⟨s', hs'⟩ := ih after.1
      exact ⟨s', .cons hfeed hs'⟩

/-- The step of a token is found behind those of the tokens in front of it. -/
private theorem Feeds.getElem?_stepsFrom {s s' : Scan} {ts : List Token} (h : Feeds o s ts s')
    (hc : o.cancelAfter = none) (hfeed : s'.feed o e = .ok (next, notices))
    (events : List Source.Event) :
    (stepsFrom s (s.runFrom o (ts.map .token ++ .token e :: events)).visits)[ts.length]? =
      some (s', e, next) := by
  induction h with
  | nil s =>
    rw [List.map_nil, List.nil_append, runFrom_token_of_ok hc hfeed]
    rfl
  | cons hstep _ ih =>
    rw [List.map_cons, List.cons_append, runFrom_token_of_ok hc hstep, stepsFrom, List.length_cons,
      List.getElem?_cons_succ]
    exact ih hfeed

end Scan

/-- What a result says about a scope, numbers aside. -/
structure Profile where
  name : Option String
  qualifiedName : Option String
  construct : Option Construct
  status : Status
  tags : Tags
  location : Location
deriving DecidableEq

namespace Result

/-- The profile of scope `i`. -/
def profile? (r : Result) (i : Nat) : Option Profile :=
  (r.registry.get? i).map fun s =>
    ⟨s.name, r.registry.qualifiedName i, s.construct, s.status, s.tags, s.location⟩

/-- Both results have the same named scopes, in the same order, and as many tokens were skipped.
    All scopes are the same but for those that dangle and for their numbers, which differ by one at
    most. -/
structure SameButDangling (r r' : Result) : Prop where
  named_eq : r'.named.map r'.profile? = r.named.map r.profile?
  skipped_eq : r'.skipped = r.skipped
  renumbered : ∃ k n, n ≤ 1 ∧ r'.size = r.size + n ∧
    (∀ i s, r.registry.get? i = some s →
      r'.registry.get? (shift k n i) = some (s.renumber k n i) ∨
        r.registry.Dangles i ∧ r'.registry.Dangles (shift k n i)) ∧
    ∀ j < r'.size, (∃ i < r.size, shift k n i = j) ∨ r'.registry.Dangles j

end Result

namespace Registry.Mirrors

variable {k n i : Nat} {left : Nat → Prop} {r₀ : Registry} {r r' : Result}

/-- A scope and its mirror image are both named or neither is. -/
private theorem any_isNamed_eq (h : Mirrors k n left r₀ r.registry r'.registry) (hi : i < r.size) :
    (r'.registry.get? (shift k n i)).any Scope.isNamed = (r.registry.get? i).any Scope.isNamed := by
  by_cases hleft : left i
  · obtain ⟨hdangles, hdangles'⟩ := h.dangles i hleft
    rw [hdangles.not_named, hdangles'.not_named]
  · have hs : r.registry.get? i = some r.registry.scopes[i] := List.getElem?_eq_getElem hi
    rw [h.scopes i _ hleft hs, hs]
    rfl

/-- The named scopes are the images of the named scopes. -/
private theorem named_eq (h : Mirrors k n left r₀ r.registry r'.registry)
    (hbetween : ∀ j, k ≤ j → j < k + n → r'.registry.Dangles j) :
    r'.named = r.named.map (shift k n) := by
  rw [Result.named, Result.named, Result.select, Result.select, Result.all, Result.all, Result.size,
    h.size_eq]
  exact filter_range_shift h.le_size (fun i hi => h.any_isNamed_eq hi) fun j hk hj =>
    (hbetween j hk hj).not_named

/-- A scope and its image have the same profile. -/
private theorem profile?_eq (h : Mirrors k n left r₀ r.registry r'.registry)
    (hr : r.registry.Arranged) (hnamed : r.registry.ParentsNamed) {s : Scope}
    (hs : r.registry.get? i = some s) (hname : s.name.isSome = true) :
    r'.profile? (shift k n i) = r.profile? i := by
  have hleft := h.not_left hs hname
  rw [Result.profile?, Result.profile?, h.scopes i s hleft hs, hs,
    h.qualifiedName_eq hr hnamed hs hleft]
  rfl

/-- Registries that mirror each other make for the same result, scopes that dangle aside. -/
private theorem sameButDangling (h : Mirrors k n left r₀ r.registry r'.registry)
    (hr : r.registry.Arranged) (hnamed : r.registry.ParentsNamed) (hn : n ≤ 1)
    (hbetween : ∀ j, k ≤ j → j < k + n → r'.registry.Dangles j)
    (hskipped : r'.skipped = r.skipped) :
    r.SameButDangling r' where
  named_eq := by
    rw [h.named_eq hbetween, List.map_map]
    refine List.map_congr_left fun i hi => ?_
    obtain ⟨s, hs, hname⟩ := (Option.any_eq_true _ _).mp (List.mem_filter.mp hi).2
    have hplaced := hr i s hs
    exact h.profile?_eq hr hnamed hs (hplaced.name_iff.mpr (of_decide_eq_true hname))
  skipped_eq := hskipped
  renumbered := by
    refine ⟨k, n, hn, h.size_eq, fun i s hs => ?_, fun j hj => ?_⟩
    · by_cases hleft : left i
      · exact .inr (h.dangles i hleft)
      · exact .inl (h.scopes i s hleft hs)
    · -- Below, among or above the numbers that come in.
      have hsize : r'.size = r.size + n := h.size_eq
      rcases Nat.lt_or_ge j k with hjk | hjk
      · exact .inl ⟨j, Nat.lt_of_lt_of_le hjk h.le_size, shift_of_lt hjk n⟩
      · rcases Nat.lt_or_ge j (k + n) with hjn | hjn
        · exact .inr (hbetween j hjk hjn)
        · refine .inl ⟨j - n, by omega, ?_⟩
          rw [shift_of_le (by omega)]
          omega

end Registry.Mirrors

namespace Scan

/-- Tag comments right before an `end` that is not skipped document nothing and disturb nothing,
    where tokens are passed over.  With them and without them the scan has the same named scopes in
    the same order, with equal names, qualified names, constructs, statuses, tags and locations, and
    skips as many tokens.  The other scopes are the same too, but for those that got tags at most
    and stand in a closed scope, and numbers differ by one at most. -/
theorem run_dangling_tags (allowed : SortedSet String) (file : Option String)
    (a d b : List Token) (e : Token) (he : e.isScopeEnd = true)
    (hd : ∀ t ∈ d, t.isTagComment = true) :
    let o : Options := .under allowed file .skip
    let result? (ts : List Token) : Except Fault Result := (run o (ts.map .token)).result? o
    ((steps o ((a ++ [e] ++ b).map .token))[a.length]?).any skips = false →
      ∃ r r', result? (a ++ [e] ++ b) = .ok r ∧ result? (a ++ d ++ [e] ++ b) = .ok r' ∧
        r.SameButDangling r' := by
  intro o result? hskip
  have hresult : ∀ ts, result? ts = .ok ⟨(run o (ts.map .token)).final.registry, file,
      (run o (ts.map .token)).final.consumed, (run o (ts.map .token)).final.skipped⟩ := fun ts =>
    Run.result?_eq_ok_iff.mpr ⟨(runFrom_skip_completes allowed file start ts).1, rfl⟩
  refine ⟨_, _, hresult _, hresult _, ?_⟩
  -- Up to the comments both go through the same tokens.
  obtain ⟨s, ha⟩ := exists_feeds (o := o) rfl start a
  have hsound : s.Sound .skip := ha.sound (start_sound .skip)
  obtain ⟨next, he'⟩ := exists_feeds (o := o) rfl s [e]
  obtain ⟨notices, hfeed⟩ : ∃ notices, s.feed o e = .ok (next, notices) := by
    cases he' with
    | cons hfeed hnil =>
      cases hnil
      exact ⟨_, hfeed⟩
  -- That the `end` is not skipped is said of a step of the whole scan, which is this one.
  have hnot : skips (s, e, next) = false := by
    have hstep := ha.getElem?_stepsFrom rfl hfeed (b.map .token)
    rw [List.append_assoc, List.map_append, List.singleton_append, List.map_cons, steps, run, hstep]
      at hskip
    exact hskip
  -- From the `end` on they mirror each other.
  obtain ⟨s', k, n, left, hfeeds, hn, hbetween, hmirrors⟩ :=
    exists_mirrors (o := o) rfl hsound he hd hfeed hnot
  have hrun := ((ha.append he').runFrom_eq rfl (b.map .token)).1
  have hrun' := ((ha.append hfeeds).runFrom_eq rfl (b.map .token)).1
  rw [← List.map_append] at hrun hrun'
  rw [run, run, hrun, show a ++ d ++ [e] ++ b = a ++ (d ++ [e]) ++ b by simp, hrun']
  have hfinal := hmirrors.runFrom allowed file b
  have hlater : s'.registry.Precedes (s'.runFrom o (b.map .token)).final.registry := by
    obtain ⟨-, hpairs, -⟩ := runFrom_precedes (o := o) hmirrors.sound' (b.map .token)
    exact (List.pairwise_cons.mp hpairs).1 _ (List.mem_append_right _ List.mem_cons_self)
  exact hfinal.registry.sameButDangling hfinal.sound.coherent.arranged hfinal.sound.parentsNamed hn
    (fun j hk hj => (hbetween j hk hj).of_precedes hlater (hfinal.registry.between j hk hj))
    hfinal.skipped_eq

/-- Two tag comments at the end of a module, with a class behind it.  One of them is not allowed. -/
theorem run_dangling_tags_module :
    let allowed := SortedSet.ofList ["domain"]
    let o : Options := .under allowed none .skip
    let result? (ts : List Token) : Except Fault Result := (run o (ts.map .token)).result? o
    let a := [Token.keyword "module" none none ⟨1, 1, none⟩, Token.constant "Foo" ⟨1, 8, none⟩]
    let d := [Token.comment "# @owner: A" ⟨2, 1, none⟩, Token.comment "# @domain: B" ⟨3, 1, none⟩]
    let e := Token.keyword "end" none none ⟨4, 1, none⟩
    let b := [Token.keyword "class" none none ⟨5, 1, none⟩, Token.constant "Bar" ⟨5, 7, none⟩]
    (steps o ((a ++ [e] ++ b).map .token))[a.length]?.any skips = false ∧
      ∃ r r', result? (a ++ [e] ++ b) = .ok r ∧ result? (a ++ d ++ [e] ++ b) = .ok r' ∧
        r.SameButDangling r' := by
  intro allowed o result? a d e b
  have hskip : (steps o ((a ++ [e] ++ b).map .token))[a.length]?.any skips = false := by
    decide +kernel
  exact ⟨hskip, run_dangling_tags allowed none a d b e (by decide) (by decide) hskip⟩

end Scan

end ScopeTags
