import ScopeTags.Proofs.DanglingTags
import ScopeTags.Proofs.SessionInPlace
import ScopeTags.Proofs.TagOrder

/-!
# The order of tag comments

Tag comments that follow each other can change places.  Before a keyword they all go to one scope,
which then holds the same tags in another order; inside of a named scope the first of them opens
that scope, and it is the same one whichever comes first.  Only between a keyword and its name are
they refused.  There every tag that is accepted counts once where tokens are passed over, and else
the first one stops the scan: which one that is depends on the order, but not which event is
refused, nor in which status.

What follows the comments does not depend on the order of tags, nor does the report, which sorts
them.

## Key results

- `Scope.documented_akin`: comments document a scope in any order
- `Scan.feedAll_perm`: what a whole run of comments does, in two orders
- `Scan.reportText_perm`: what that means for the text of the report
-/

namespace ScopeTags

/-! ## Scopes -/

namespace Scope

variable {d d' : List Token}

/-- Two tags are added in either order, though not with the same result. -/
private theorem withTag_akin (s : Scope) (a b : Tag) :
    ((s.withTag a).withTag b).Akin ((s.withTag b).withTag a) := by
  refine ⟨fun t => ?_⟩
  simp only [withTag, Tags.mem_insert]
  exact or_left_comm

/-- The scope after one comment. -/
def documentedBy (accepts : String → Bool) (s : Scope) (t : Token) : Scope :=
  if t.documents accepts then s.withTag t.tag else s

/-- A comment documents scopes that are the same up to the order of tags alike. -/
private theorem Akin.documentedBy {s s' : Scope} (h : s.Akin s') (accepts : String → Bool)
    (t : Token) : (s.documentedBy accepts t).Akin (s'.documentedBy accepts t) := by
  unfold Scope.documentedBy
  split
  · exact h.withTag t.tag
  · exact h

/-- Two comments document a scope in either order, up to the order of its tags. -/
private theorem documentedBy_akin (s : Scope) (accepts : String → Bool) (t u : Token) :
    ((s.documentedBy accepts t).documentedBy accepts u).Akin
      ((s.documentedBy accepts u).documentedBy accepts t) := by
  -- Only where both document the scope does the order show.
  by_cases ht : t.documents accepts = true
  · by_cases hu : u.documents accepts = true
    · simp only [documentedBy, if_pos ht, if_pos hu]
      exact s.withTag_akin t.tag u.tag
    · simp only [documentedBy, if_pos ht, if_neg hu]
      exact .refl _
  · simp only [documentedBy, if_neg ht]
    exact .refl _

/-- Comments keep the order of tags the only difference between two scopes. -/
theorem Akin.documented {s s' : Scope} (h : s.Akin s') (accepts : String → Bool) (d : List Token) :
    (s.documented accepts d).Akin (s'.documented accepts d) := by
  induction d generalizing s s' with
  | nil => exact h
  | cons t d ih => exact ih (h.documentedBy accepts t)

/-- Comments document scopes that are the same up to the order of tags, and do so in any order. -/
theorem documented_akin (hperm : d.Perm d') (accepts : String → Bool) {s s' : Scope}
    (h : s.Akin s') : (s.documented accepts d).Akin (s'.documented accepts d') := by
  -- By induction on how the one order comes from the other, by swaps.
  induction hperm generalizing s s' with
  | nil => exact h
  | cons t _ ih => exact ih (h.documentedBy accepts t)
  | swap t u d =>
    -- Past the two that change places the comments are the same.
    exact ((s.documentedBy_akin accepts u t).trans
      ((h.documentedBy accepts t).documentedBy accepts u)).documented accepts d
  | trans _ _ ih ih' => exact (ih (.refl s)).trans (ih' h)

end Scope

/-! ## One run of comments -/

namespace Scan

variable {o : Options} {s s' : Scan} {e : Scope} {t : Token} {ts d d' : List Token}

/-! ### Before a keyword -/

/-- Comments before a keyword document the current scope. -/
private theorem feedAll_unnamed (he : s.currentScope? = some e) (hi : e.Intact)
    (hst : e.status = .pending ∨ e.status = .tagged) (hd : ∀ t ∈ d, t.isTagComment = true) :
    s.feedAll o d = .ok { s with
      registry := s.registry.set s.current (e.documented o.settings.accepts d)
      consumed := s.consumed + d.length } := by
  have hf : e.frozen = false := by
    rw [← Bool.not_eq_true, show e.frozen = true ↔ e.status = .closed from hi]
    rcases hst with hst | hst <;> simp [hst]
  exact feedAll_eq_ok_iff.mpr (leads_tags he hst hf hd s.consumed s.skipped)

/-- Inside of a named scope, comments document the scope that they open. -/
private theorem feedAll_named (he : s.currentScope? = some e) (hi : e.Intact)
    (hn : e.status = .named) (hne : d ≠ []) (hd : ∀ t ∈ d, t.isTagComment = true) :
    s.feedAll o d = .ok { s with
      registry := s.registry.push ((s.registry.inner s.current).documented o.settings.accepts d)
      current := s.registry.size
      consumed := s.consumed + d.length } := by
  obtain ⟨t, d, rfl⟩ := List.exists_cons_of_ne_nil hne
  exact feedAll_eq_ok_iff.mpr (leads_tags_inside he hi hn hd s.consumed s.skipped)

/-! ### Between a keyword and its name -/

section Awaiting

variable (he : s.currentScope? = some e) (hi : e.Intact) (hst : e.status = .awaitingName)

/-- A tag that is accepted is refused where a name is to come. -/
private theorem respond_awaiting (hst : e.status = .awaitingName) {accepts : String → Bool}
    (hd : t.documents accepts = true) (r : Registry) (c : Nat) :
    t.role accepts ≠ .closes ∧ r.respond c e (t.role accepts) = .error (e.refuse "tag") := by
  obtain ⟨ht, ha⟩ : t.isTagComment = true ∧ accepts t.tag.name = true := by
    simpa [Token.documents] using hd
  rw [Token.role_of_isTagComment _ ht, if_pos ha]
  simp [Registry.respond, hst]

include he hi hst

/-- A tag that is not accepted does nothing to a scope that waits for its name. -/
private theorem feed_awaiting (ht : t.isTagComment = true)
    (hd : ¬t.documents o.settings.accepts = true) :
    ∃ notices, s.feed o t = .ok ({ s with consumed := s.consumed + 1 }, notices) := by
  have ha : ¬o.settings.accepts t.tag.name = true := by simpa [Token.documents, ht] using hd
  have hrespond : s.registry.respond s.current e (t.role o.settings.accepts) =
      .ok (s.registry, some s.current) := by
    rw [Token.role_of_isTagComment _ ht, if_neg ha]
    simp only [Registry.respond, hst]
  exact dispatch_of_ok (s := { s with consumed := s.consumed + 1 }) he hi hrespond

/-- Each tag that is accepted counts as skipped, where tokens are passed over. -/
private theorem feedAll_awaiting_skip (hp : o.settings.policy = .skip)
    (hd : ∀ t ∈ d, t.isTagComment = true) :
    s.feedAll o d = .ok { s with
      consumed := s.consumed + d.length
      skipped := s.skipped + d.countP (Token.documents o.settings.accepts) } := by
  -- By induction on the comments.  None of them changes the current scope, so it still awaits its
  -- name.
  induction d generalizing s with
  | nil => rfl
  | cons t d ih =>
    have hrest := fun u hu => hd u (List.mem_cons_of_mem t hu)
    rw [List.length_cons]
    by_cases ht : t.documents o.settings.accepts = true
    · obtain ⟨hno, hrespond⟩ := respond_awaiting hst ht s.registry s.current
      obtain ⟨notices, hfeed⟩ := feed_of_misfit he hi hp hrespond fun h => hno h.1
      rw [feedAll_cons_of_ok hfeed, List.countP_cons_of_pos ht,
        ih (s := { s with consumed := s.consumed + 1, skipped := s.skipped + 1 }) he hrest]
      simp only [Nat.add_assoc, Nat.add_comm 1]
    · obtain ⟨notices, hfeed⟩ := feed_awaiting he hi hst (hd t List.mem_cons_self) ht
      rw [feedAll_cons_of_ok hfeed, List.countP_cons_of_neg ht,
        ih (s := { s with consumed := s.consumed + 1 }) he hrest]
      simp only [Nat.add_assoc, Nat.add_comm 1]

/-- Where tokens must fit, a tag that is accepted stops the scan. -/
private theorem feedAll_awaiting_raise (hp : o.settings.policy = .raise)
    (hd : ∀ t ∈ d, t.isTagComment = true) :
    (d.countP (Token.documents o.settings.accepts) = 0 →
      s.feedAll o d = .ok { s with consumed := s.consumed + d.length }) ∧
    (d.countP (Token.documents o.settings.accepts) ≠ 0 →
      ∃ t ∈ d, s.feedAll o d = .error (refusal o.file t e "tag")) := by
  -- By induction on the comments up to the first one that is accepted.
  induction d generalizing s with
  | nil => exact ⟨fun _ => rfl, fun h => absurd rfl h⟩
  | cons t d ih =>
    by_cases ht : t.documents o.settings.accepts = true
    · have hrespond := (respond_awaiting hst ht s.registry s.current).2
      have hfeed : s.feed o t = .error (refusal o.file t e "tag") :=
        dispatch_of_raise (s := { s with consumed := s.consumed + 1 }) he hi hrespond hp
      rw [List.countP_cons_of_pos ht]
      exact ⟨fun h => by omega, fun _ => ⟨t, List.mem_cons_self, feedAll_cons_of_error hfeed d⟩⟩
    · obtain ⟨notices, hfeed⟩ := feed_awaiting he hi hst (hd t List.mem_cons_self) ht
      obtain ⟨hnone, hsome⟩ := ih (s := { s with consumed := s.consumed + 1 }) he
        fun u hu => hd u (List.mem_cons_of_mem t hu)
      rw [List.countP_cons_of_neg ht, feedAll_cons_of_ok hfeed]
      constructor
      · intro h
        rw [hnone h, List.length_cons]
        simp only [Nat.add_assoc, Nat.add_comm 1]
      · intro h
        obtain ⟨u, hu, hfed⟩ := hsome h
        exact ⟨u, List.mem_cons_of_mem t hu, hfed⟩

end Awaiting

/-! ### Anywhere -/

/-- A run of tag comments does the same in any order, up to the order of tags. -/
theorem feedAll_perm (h : s.Coherent o.settings.policy) (hd : ∀ t ∈ d, t.isTagComment = true)
    (hperm : d.Perm d') : Alike Akin (s.feedAll o d) (s.feedAll o d') := by
  obtain ⟨e, he, hopen⟩ := h.current_open
  have hi : e.Intact := (h.arranged _ e he).intact
  have hd' : ∀ t ∈ d', t.isTagComment = true := fun t ht => hd t (hperm.mem_iff.mpr ht)
  have hdocumented := Scope.documented_akin hperm o.settings.accepts (.refl e)
  -- Before a keyword, all comments go to the current scope.
  have hunnamed : e.status = .pending ∨ e.status = .tagged →
      Alike Akin (s.feedAll o d) (s.feedAll o d') := by
    intro hst
    rw [feedAll_unnamed he hi hst hd, feedAll_unnamed he hi hst hd', hperm.length_eq]
    exact .ok ⟨(Registry.Akin.refl s.registry).set s.current hdocumented, rfl, rfl, rfl⟩
  cases hst : e.status with
  | pending => exact hunnamed (.inl hst)
  | tagged => exact hunnamed (.inr hst)
  | named =>
    -- Without a comment no scope is opened.
    by_cases hne : d = []
    · subst hne
      rw [← hperm.nil_eq]
      exact .ok (.refl s)
    · have hne' : d' ≠ [] := fun h => hne (h ▸ hperm).eq_nil
      rw [feedAll_named he hi hst hne hd, feedAll_named he hi hst hne' hd', hperm.length_eq]
      have hdocumented := Scope.documented_akin hperm o.settings.accepts
        (.refl (s.registry.inner s.current))
      exact .ok ⟨(Registry.Akin.refl s.registry).push hdocumented, rfl, rfl, rfl⟩
  | awaitingName =>
    -- As many are accepted in either order, which is all that counts here.
    have hcount := hperm.countP_eq (Token.documents o.settings.accepts)
    cases hp : o.settings.policy with
    | skip =>
      rw [feedAll_awaiting_skip he hi hst hp hd, feedAll_awaiting_skip he hi hst hp hd',
        hperm.length_eq, hcount]
      exact .ok (.refl _)
    | raise =>
      obtain ⟨hnone, hsome⟩ := feedAll_awaiting_raise he hi hst hp hd
      obtain ⟨hnone', hsome'⟩ := feedAll_awaiting_raise he hi hst hp hd'
      by_cases hzero : d.countP (Token.documents o.settings.accepts) = 0
      · rw [hnone hzero, hnone' (hcount ▸ hzero), hperm.length_eq]
        exact .ok (.refl _)
      · -- Another comment may be the first one in the other order.
        obtain ⟨t, -, hfed⟩ := hsome hzero
        obtain ⟨t', -, hfed'⟩ := hsome' (hcount ▸ hzero)
        rw [hfed, hfed']
        exact .refused _ _ _ _
  | closed => exact absurd hst hopen

/-! ## Reports -/

/-- The state at the end of a scan of tokens that is not cancelled. -/
private theorem last_runFrom_tokens (hc : o.cancelAfter = none) (s : Scan) (ts : List Token) :
    (s.runFrom o (ts.map .token)).last = s.feedAll o ts := by
  -- By induction on the tokens, since no event but a token comes up.
  induction ts generalizing s with
  | nil => rfl
  | cons t ts ih =>
    rw [List.map_cons]
    cases hfeed : s.feed o t with
    | error fault =>
      rw [runFrom_token_of_error hc hfeed, feedAll_cons_of_error hfeed]
      rfl
    | ok after =>
      rw [runFrom_token_of_ok hc hfeed, feedAll_cons_of_ok hfeed]
      exact ih after.1

/-- Where tokens are passed over, none stops the scan. -/
private theorem feedAll_skip_ne_error (allowed : SortedSet String) (file : Option String)
    (ts : List Token) (fault : Fault) :
    start.feedAll (.under allowed file .skip) ts ≠ .error fault := by
  rw [← last_runFrom_tokens rfl, Run.last, (runFrom_skip_completes allowed file start ts).1]
  intro h
  cases h

/-- The text of the report on a scan of tokens. -/
def reportText (o : Options) (indent : Option Int) (ts : List Token) : Except Fault String :=
  (((Input.tokens ts).scan o).result? o).map fun result => result.toJson.render indent

/-- The text of the report, from the state at the end. -/
private theorem reportText_eq (hc : o.cancelAfter = none) (indent : Option Int) (ts : List Token) :
    reportText o indent ts =
      (start.feedAll o ts).map fun s => (s.result o).toJson.render indent := by
  have hlast : ((Input.tokens ts).scan o).last = start.feedAll o ts :=
    last_runFrom_tokens hc start ts
  rw [reportText, Run.result?_eq, hlast]
  cases start.feedAll o ts <;> rfl

/-- The texts of reports on states that are the same up to the order of tags. -/
private theorem Akin.render_eq (h : s.Akin s') (o : Options) (indent : Option Int) :
    (s'.result o).toJson.render indent = (s.result o).toJson.render indent := by
  have hjson : (s'.result o).toJson = (s.result o).toJson :=
    Result.toJson_eq_of_akin h.registry rfl h.consumed_eq h.skipped_eq
  rw [hjson]

/-- Among other tokens, a run of tag comments does the same in any order, up to the order of
    tags. -/
private theorem feedAll_start_perm (allowed : SortedSet String) (file : Option String)
    (policy : Policy) (before after : List Token) (hd : ∀ t ∈ d, t.isTagComment = true)
    (hperm : d.Perm d') :
    Alike Akin (start.feedAll (.under allowed file policy) (before ++ d ++ after))
      (start.feedAll (.under allowed file policy) (before ++ d' ++ after)) := by
  have hcoherent : ∀ {ts s}, start.feedAll (.under allowed file policy) ts = .ok s →
      s.Coherent policy := fun h => ((feedAll_eq_ok_iff.mp h).sound (start_sound policy)).coherent
  rw [feedAll_append _ _ (before ++ d), feedAll_append _ _ (before ++ d')]
  -- The tokens after the comments take up what the order of the comments has left.
  refine Alike.bind ?_ fun s s' hs hakin =>
    feedAll_akin (o := .under allowed file policy) hakin (hcoherent hs) after
  rw [feedAll_append, feedAll_append]
  cases hbefore : start.feedAll (.under allowed file policy) before with
  | ok s => exact feedAll_perm (o := .under allowed file policy) (hcoherent hbefore) hd hperm
  -- The scan has stopped before the comments.
  | error fault =>
    have hself := feedAll_akin (o := .under allowed file policy) (.refl start)
      (start_coherent policy) before
    rw [hbefore] at hself
    exact hself.bind fun s _ hs => nomatch hs

/-- The order of tag comments that follow each other leaves no trace in the text of the report.
    Where tokens are passed over, both scans have one, and the texts are the same.  Else both have
    one and the texts are the same, or both stop because the same event is refused in the same
    status. -/
theorem reportText_perm (allowed : SortedSet String) (file : Option String)
    (before after : List Token) {run run' : List Token} (hrun : ∀ t ∈ run, t.isTagComment = true)
    (hperm : run.Perm run') :
    (∀ indent, ∃ text,
      reportText (.under allowed file .skip) indent (before ++ run ++ after) = .ok text ∧
      reportText (.under allowed file .skip) indent (before ++ run' ++ after) = .ok text) ∧
    ((∀ indent, ∃ text,
      reportText (.under allowed file .raise) indent (before ++ run ++ after) = .ok text ∧
      reportText (.under allowed file .raise) indent (before ++ run' ++ after) = .ok text) ∨
    ∃ event status site site', ∀ indent,
      reportText (.under allowed file .raise) indent (before ++ run ++ after) =
        .error (.illegalTransition event status site) ∧
      reportText (.under allowed file .raise) indent (before ++ run' ++ after) =
        .error (.illegalTransition event status site')) := by
  have hc : ∀ policy, (Options.under allowed file policy).cancelAfter = none := fun _ => rfl
  simp only [reportText_eq (hc _)]
  constructor
  · -- Where tokens are passed over, a refusal does not come up.
    rcases (feedAll_start_perm allowed file .skip before after hrun hperm).ok_or_refused with
      ⟨s, s', hs, hs', hakin⟩ | ⟨event, status, site, site', herror, -⟩
    · rw [hs, hs']
      exact fun indent => ⟨_, rfl, congrArg Except.ok (hakin.render_eq _ indent)⟩
    · exact absurd herror (feedAll_skip_ne_error allowed file _ _)
  · rcases (feedAll_start_perm allowed file .raise before after hrun hperm).ok_or_refused with
      ⟨s, s', hs, hs', hakin⟩ | ⟨event, status, site, site', herror, herror'⟩
    · rw [hs, hs']
      exact .inl fun indent => ⟨_, rfl, congrArg Except.ok (hakin.render_eq _ indent)⟩
    · rw [herror, herror']
      exact .inr ⟨event, status, site, site', fun indent => ⟨rfl, rfl⟩⟩

/-- Two tag comments.  Before the keyword they leave the scope with its tags in two orders, of which
    the texts show nothing.  Between the keyword and the name both are passed over, or the one that
    comes first stops the scan. -/
theorem reportText_perm_two_tags :
    let tag (line : Int) (name value : String) : Token :=
      { kind := .comment, text := "# @" ++ name ++ ": " ++ value, location := { line, column := 1 },
        tagName := some name, tagValue := some value }
    let keyword : Token :=
      { kind := .keyword, text := "module", location := { line := 1, column := 1 },
        keywordClass := some .newScope, construct := some .moduleDef }
    let name : Token := { kind := .constant, text := "Foo", location := { line := 4, column := 1 } }
    let run := [tag 2 "owner" "Ops", tag 3 "domain" "Billing"]
    let run' := [tag 3 "domain" "Billing", tag 2 "owner" "Ops"]
    (∀ t ∈ run, t.isTagComment = true) ∧ run.Perm run' ∧
      ((start.feedAll (.under ∅ none .skip) run).toOption ≠
          (start.feedAll (.under ∅ none .skip) run').toOption ∧
        ∃ text, reportText (.under ∅ none .skip) none ([] ++ run ++ [keyword, name]) = .ok text ∧
          reportText (.under ∅ none .skip) none ([] ++ run' ++ [keyword, name]) = .ok text) ∧
      (∃ text, reportText (.under ∅ none .skip) none ([keyword] ++ run ++ [name]) = .ok text ∧
        reportText (.under ∅ none .skip) none ([keyword] ++ run' ++ [name]) = .ok text) ∧
      ∃ event status site site',
        reportText (.under ∅ none .raise) none ([keyword] ++ run ++ [name]) =
          .error (.illegalTransition event status site) ∧
        reportText (.under ∅ none .raise) none ([keyword] ++ run' ++ [name]) =
          .error (.illegalTransition event status site') := by
  intro tag keyword name run run'
  have hrun : ∀ t ∈ run, t.isTagComment = true := by decide
  have hperm : run.Perm run' := .swap _ _ _
  obtain ⟨hskip, hraise⟩ := reportText_perm ∅ none [keyword] [name] hrun hperm
  refine ⟨hrun, hperm, ⟨by decide +kernel,
    (reportText_perm ∅ none [] [keyword, name] hrun hperm).1 none⟩, hskip none, ?_⟩
  rcases hraise with hcompletes | ⟨event, status, site, site', hrefused⟩
  · obtain ⟨text, htext, -⟩ := hcompletes none
    have hstops : (start.feedAll (.under ∅ none .raise) ([keyword] ++ run ++ [name])).toOption =
        none := by
      decide +kernel
    rw [reportText_eq rfl] at htext
    cases hfed : start.feedAll (.under ∅ none .raise) ([keyword] ++ run ++ [name]) with
    | error fault =>
      rw [hfed] at htext
      cases htext
    | ok s =>
      rw [hfed] at hstops
      cases hstops
  · exact ⟨event, status, site, site', hrefused none⟩

end Scan

end ScopeTags
