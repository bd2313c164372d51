import ScopeTags.Proofs.ScanInvariant

/-!
# Outlines

An outline is a forest of constructs with all the tokens that stand around them: the tag comments
before a construct, and noise wherever it may stand.  Scanning the tokens of an outline gives back
the forest: one closed scope for each construct, in the order in which the constructs begin, and a
new outermost scope after them.

## Key results

- `Outline.leads_body`, `Outline.leads_top`: what the tokens of an outline do inside of a named
  scope, and where an outermost scope is waiting
- `Outline.map_qualifiedName`: the qualified names that the scopes of an outline have
- `Outline.scan_tokens`: the scan of an outline
-/

namespace ScopeTags

namespace Token

/-- A plain comment, a keyword that neither opens nor ends a construct, or a name. -/
def isNoise (t : Token) : Bool :=
  match t.kind with
  | .comment => t.tagName.isNone
  | .keyword => t.keywordClass ≠ some .newScope ∧ t.keywordClass ≠ some .scopeEnd
  | .identifier | .constant => true

/-- Noise that is no name, or only one that names no construct. -/
def isFiller (t : Token) : Bool :=
  t.isNoise && (!t.isNameCandidate || t.text ∈ ignoredNames)

/-- The keyword of a construct. -/
def isOpening (t : Token) : Bool :=
  t.kind = .keyword ∧ t.keywordClass = some .newScope

/-- A name that can be the one of a construct. -/
def isProperName (t : Token) : Bool :=
  t.isNameCandidate && t.text ∉ ignoredNames

/-- A tag comment whose tag is of interest. -/
def documents (accepts : String → Bool) (t : Token) : Bool :=
  t.isTagComment && accepts t.tag.name

end Token

/-- Tokens of a class. -/
abbrev TokenOf (p : Token → Bool) : Type := { t : Token // p t = true }

/-- A forest of constructs as it stands in the tokens: construct after construct, and after the last
    one nothing but noise. -/
inductive Outline where
  | nil (noise : List (TokenOf Token.isNoise))
  /-- Tag comments and noise, the keyword, what may stand before the name, the name, the constructs
      inside with noise around them, and the `end`; then the constructs that follow. -/
  | cons (leading : List (TokenOf fun t => t.isTagComment || t.isNoise))
      (keyword : TokenOf Token.isOpening) (filler : List (TokenOf Token.isFiller))
      (name : TokenOf Token.isProperName) (body : Outline) (close : TokenOf Token.isScopeEnd)
      (rest : Outline)

namespace Outline

/-- The tokens of an outline. -/
def tokens : Outline → List Token
  | nil noise => noise.map (·.val)
  | cons leading keyword filler name body close rest =>
    leading.map (·.val) ++ [keyword.val] ++ filler.map (·.val) ++ [name.val] ++ body.tokens ++
      [close.val] ++ rest.tokens

/-- How many constructs there are. -/
def size : Outline → Nat
  | nil _ => 0
  | cons _ _ _ _ body _ rest => 1 + body.size + rest.size

/-- The tags of interest among the comments before a construct. -/
def tagsOf (accepts : String → Bool) (leading : List Token) : Tags :=
  .ofList ((leading.filter (Token.documents accepts)).map Token.tag)

/-- The scopes of an outline whose first construct gets the number `first`, and whose outermost
    constructs lie in scope `parent`. -/
def scopes (accepts : String → Bool) (parent : Option Nat) (first : Nat) : Outline → List Scope
  | nil _ => []
  | cons leading keyword _ name body _ rest =>
    { id := first
      arena := some Scan.arena
      parent
      name := some name.val.text
      construct := keyword.val.construct
      status := .closed
      tags := tagsOf accepts (leading.map (·.val))
      location := name.val.location
      frozen := true } ::
      (body.scopes accepts (some first) (first + 1) ++
        rest.scopes accepts parent (first + 1 + body.size))

/-- The qualified names of an outline that lies inside of scopes with the names `around`. -/
def qualifiedNames (around : List String) : Outline → List String
  | nil _ => []
  | cons _ keyword _ name body _ rest =>
    let separator := if keyword.val.construct = some .instanceMethod then "#" else "::"
    (if around = [] then name.val.text
      else String.intercalate "::" around ++ separator ++ name.val.text) ::
      (body.qualifiedNames (around ++ [name.val.text]) ++ rest.qualifiedNames around)

/-- There is a scope for each construct. -/
private theorem length_scopes (accepts : String → Bool) (parent : Option Nat) (first : Nat)
    (outline : Outline) : (outline.scopes accepts parent first).length = outline.size := by
  induction outline generalizing parent first with
  | nil noise => rfl
  | cons leading keyword filler name body close rest ihb ihr =>
    simp only [scopes, size, List.length_cons, List.length_append, ihb, ihr]
    omega

end Outline

/-! ## Roles of the tokens of an outline -/

namespace Token

variable (accepts : String → Bool) {t : Token}

/-- Noise has no role, or it is a name. -/
private theorem role_of_isNoise (h : t.isNoise = true) :
    t.role accepts = .idle ∨ ∃ text location, t.role accepts = .names text location := by
  unfold isNoise at h
  unfold role
  -- Comments and keywords have no role here; only a name may have one.
  cases hk : t.kind with
  | comment =>
    simp only [hk] at h
    left
    simp [isTagComment, Option.isNone_iff_eq_none.mp h]
  | keyword =>
    simp only [hk, decide_eq_true_eq] at h
    left
    dsimp only
    split
    · next hc => exact absurd hc h.1
    · next hc => exact absurd hc h.2
    · rfl
  | identifier =>
    dsimp only
    split
    · exact .inl rfl
    · exact .inr ⟨_, _, rfl⟩
  | constant =>
    dsimp only
    split
    · exact .inl rfl
    · exact .inr ⟨_, _, rfl⟩

/-- What may stand before the name of a construct has no role. -/
private theorem role_of_isFiller (h : t.isFiller = true) : t.role accepts = .idle := by
  rw [isFiller, Bool.and_eq_true] at h
  rcases role_of_isNoise accepts h.1 with hr | ⟨text, location, hr⟩
  · exact hr
  · -- A name that may stand here is among the ignored ones.
    have h2 := h.2
    unfold role at hr ⊢
    unfold isNameCandidate at h2
    cases hk : t.kind <;> grind

/-- The keyword of a construct opens a scope. -/
private theorem role_of_isOpening (h : t.isOpening = true) :
    t.role accepts = .opens t.construct := by
  simp only [isOpening, decide_eq_true_eq] at h
  simp only [role, h.1, h.2]

/-- A proper name names one. -/
private theorem role_of_isProperName (h : t.isProperName = true) :
    t.role accepts = .names t.text t.location := by
  simp only [isProperName, isNameCandidate, Bool.and_eq_true, decide_eq_true_eq] at h
  rcases h.1 with hk | hk <;> simp [role, hk, h.2]

/-- A tag comment tags, or is dropped. -/
theorem role_of_isTagComment (h : t.isTagComment = true) :
    t.role accepts = if accepts t.tag.name then .tag t.tag else .drop := by
  have hk : t.kind = .comment := by
    simp only [isTagComment, decide_eq_true_eq] at h
    exact h.1
  simp only [role, hk, h, if_true]

end Token

/-! ## Leading from one place to another -/

namespace Scan

/-- The tokens lead from scope `c` in one registry to scope `c'` in another, and all are taken. -/
def Leads (o : Options) (r : Registry) (c : Nat) (ts : List Token) (r' : Registry) (c' : Nat) :
    Prop :=
  ∀ consumed skipped, Feeds o ⟨r, c, consumed, skipped⟩ ts ⟨r', c', consumed + ts.length, skipped⟩

namespace Leads

variable {o : Options} {r r' r'' : Registry} {c c' c'' : Nat} {s : Scope} {t : Token}
  {ts us : List Token}

/-- No tokens lead nowhere else. -/
theorem nil (o : Options) (r : Registry) (c : Nat) : Leads o r c [] r c :=
  fun _ _ => .nil _

/-- Tokens that lead on from where others have led. -/
theorem append (h : Leads o r c ts r' c') (h' : Leads o r' c' us r'' c'') :
    Leads o r c (ts ++ us) r'' c'' := by
  intro consumed skipped
  rw [List.length_append, ← Nat.add_assoc]
  exact (h consumed skipped).append (h' _ skipped)

/-- One token that the registry responds to. -/
theorem single (hs : r.get? c = some s) (hi : s.Intact) {x : Registry × Option Nat}
    (hx : r.respond c s (t.role o.settings.accepts) = .ok x)
    (hm : ∀ consumed skipped,
      ({ registry := r, current := c, consumed, skipped } : Scan).moved x =
        ⟨r', c', consumed, skipped⟩) :
    Leads o r c [t] r' c' := by
  intro consumed skipped
  have he : ({ registry := r, current := c, consumed := consumed + 1, skipped } :
      Scan).currentScope? = some s := hs
  obtain ⟨notices, hd⟩ := dispatch_of_ok he hi hx
  rw [hm] at hd
  exact .single hd

/-- One token after which the scope `c'` is current. -/
theorem step (hs : r.get? c = some s) (hi : s.Intact)
    (hx : r.respond c s (t.role o.settings.accepts) = .ok (r', some c')) :
    Leads o r c [t] r' c' :=
  single hs hi hx fun _ _ => rfl

/-- Tokens to which the current scope does not respond. -/
theorem stay (hs : r.get? c = some s) (hi : s.Intact)
    (h : ∀ t ∈ ts, r.respond c s (t.role o.settings.accepts) = .ok (r, some c)) :
    Leads o r c ts r c := by
  induction ts with
  | nil => exact nil o r c
  | cons t ts ih =>
    have ht := step hs hi (h t (by simp))
    exact ht.append (ih fun u hu => h u (List.mem_cons_of_mem t hu))

/-- A place that is coherent leads to such a place. -/
theorem coherent (h : Leads o r c ts r' c') (hr : r.Coherent o.settings.policy c) :
    r'.Coherent o.settings.policy c' := by
  have hf := h 0 0
  suffices ∀ s ts s', Feeds o s ts s' → s.Coherent o.settings.policy →
      s'.Coherent o.settings.policy from this _ _ _ hf hr
  intro s ts s' hf hs
  induction hf with
  | nil s => exact hs
  | cons hfeed _ ih => exact ih (feed_coherent hs hfeed)

/-- Tokens that lead on from the start of a scan make up a scan that comes to its end. -/
theorem result?_eq (h : Leads o start.registry start.current ts r c) (hc : o.cancelAfter = none) :
    ((Input.tokens ts).scan o).result? o =
      .ok { registry := r, file := o.file, tokens := ts.length, skipped := 0 } := by
  obtain ⟨hfinal, hfault⟩ := (h 0 0).runFrom_eq hc []
  have hstart : (⟨start.registry, start.current, 0, 0⟩ : Scan) = start := rfl
  have hrun : (Input.tokens ts).scan o = start.runFrom o (ts.map .token) := rfl
  rw [hstart, List.append_nil] at hfinal hfault
  rw [Run.result?, hrun, hfault, hfinal]
  simp [runFrom]

end Leads

end Scan

namespace Registry

/-- A scope that waits for no name does not respond to noise. -/
private theorem respond_of_isNoise {r : Registry} {c : Nat} {s : Scope}
    (hs : s.status ≠ .awaitingName) {t : Token} (ht : t.isNoise = true) (accepts : String → Bool) :
    r.respond c s (t.role accepts) = .ok (r, some c) := by
  rcases t.role_of_isNoise accepts ht with hr | ⟨text, location, hr⟩
  · rw [hr]
    rfl
  · rw [hr]
    cases hst : s.status <;> simp_all [respond]

end Registry

namespace Scope

/-- The scope after the comments before its construct. -/
def documented (accepts : String → Bool) (s : Scope) (leading : List Token) : Scope :=
  leading.foldl (fun s t => if t.documents accepts then s.withTag t.tag else s) s

variable {accepts : String → Bool} {s : Scope} {t : Token} {leading : List Token}

/-- A comment that documents adds its tag. -/
theorem documented_cons_of_pos (h : t.documents accepts = true) :
    s.documented accepts (t :: leading) = (s.withTag t.tag).documented accepts leading := by
  rw [documented, List.foldl_cons, if_pos h, documented]

/-- A comment that does not document leaves a scope as it is. -/
theorem documented_cons_of_neg (h : ¬t.documents accepts = true) :
    s.documented accepts (t :: leading) = s.documented accepts leading := by
  rw [documented, List.foldl_cons, if_neg h, documented]

/-- Before its keyword comes, comments do nothing to a scope but add tags. -/
private theorem documented_awaiting (construct : Option Construct) :
    (s.documented accepts leading).awaiting construct =
      { s with
        status := .awaitingName
        construct := construct.or s.construct
        tags := ((leading.filter (Token.documents accepts)).map Token.tag).foldl
          Tags.insert s.tags } := by
  induction leading generalizing s with
  | nil => rfl
  | cons t leading ih =>
    by_cases ht : t.documents accepts = true
    · rw [documented_cons_of_pos ht, ih, List.filter_cons_of_pos ht]
      rfl
    · rw [documented_cons_of_neg ht, ih, List.filter_cons_of_neg ht]

/-- A scope that is neither frozen nor closed is intact. -/
theorem intact_of_not_frozen (h : s.frozen = false) (hs : s.status ≠ .closed) : s.Intact := by
  simp [Intact, h, hs]

end Scope

/-! ## The tokens before a construct -/

namespace Scan

variable {o : Options} {r : Registry} {c : Nat} {s : Scope}

/-- Where the scope of a construct is there already, what comes before the construct documents
    it. -/
private theorem leads_leading (hs : r.get? c = some s)
    (hst : s.status = .pending ∨ s.status = .tagged) (hf : s.frozen = false)
    (leading : List (TokenOf fun t => t.isTagComment || t.isNoise))
    (keyword : TokenOf Token.isOpening) :
    Leads o r c (leading.map (·.val) ++ [keyword.val])
      (r.set c ((s.documented o.settings.accepts (leading.map (·.val))).awaiting
        keyword.val.construct)) c := by
  have hi : s.Intact := Scope.intact_of_not_frozen hf (by rcases hst with h | h <;> simp [h])
  -- The scope gets more tags with each comment, so the induction is for any scope of that status.
  induction leading generalizing r s with
  | nil =>
    refine Leads.step hs hi ?_
    rw [Token.role_of_isOpening _ keyword.property]
    rcases hst with hst | hst <;> simp [Registry.respond, hst, Scope.documented]
  | cons t leading ih =>
    obtain ⟨t, ht⟩ := t
    simp only [List.map_cons, List.cons_append]
    rw [← List.singleton_append]
    by_cases htag : t.isTagComment = true
    · by_cases ha : o.settings.accepts t.tag.name = true
      · -- The scope takes the tag, and the rest of the comments go on from there.
        have hd : t.documents o.settings.accepts = true := by simp [Token.documents, htag, ha]
        have hx : r.respond c s (t.role o.settings.accepts) =
            .ok (r.set c (s.withTag t.tag), some c) := by
          rw [Token.role_of_isTagComment _ htag, if_pos ha]
          rcases hst with hst | hst <;> simp [Registry.respond, hst]
        have hnext := ih (Registry.get?_set_self (Registry.lt_size_of_get? hs) (s.withTag t.tag))
          (.inr rfl) hf (Scope.intact_of_not_frozen hf (by simp [Scope.withTag]))
        rw [Registry.set_set, ← Scope.documented_cons_of_pos hd] at hnext
        exact (Leads.step hs hi hx).append hnext
      · -- The tag is left out.
        have hd : ¬t.documents o.settings.accepts = true := by simp [Token.documents, ha]
        have hx : r.respond c s (t.role o.settings.accepts) = .ok (r, some c) := by
          rw [Token.role_of_isTagComment _ htag, if_neg ha]
          rcases hst with hst | hst <;> simp [Registry.respond, hst]
        rw [Scope.documented_cons_of_neg hd]
        exact (Leads.step hs hi hx).append (ih hs hst hf hi)
    · have hn : t.isNoise = true := by simpa [htag] using ht
      have hd : ¬t.documents o.settings.accepts = true := by simp [Token.documents, htag]
      have hx := Registry.respond_of_isNoise (r := r) (c := c) (s := s)
        (by rcases hst with hst | hst <;> simp [hst]) hn o.settings.accepts
      rw [Scope.documented_cons_of_neg hd]
      exact (Leads.step hs hi hx).append (ih hs hst hf hi)

/-- Inside of a named scope, the first tag comment before a construct opens its scope, or else its
    keyword does. -/
private theorem leads_leading_inside (hs : r.get? c = some s) (hi : s.Intact)
    (hn : s.status = .named) (leading : List (TokenOf fun t => t.isTagComment || t.isNoise))
    (keyword : TokenOf Token.isOpening) :
    Leads o r c (leading.map (·.val) ++ [keyword.val])
      (r.push (((r.inner c).documented o.settings.accepts (leading.map (·.val))).awaiting
        keyword.val.construct)) r.size := by
  -- By induction up to the first tag comment, which opens the scope.
  induction leading with
  | nil =>
    refine Leads.step hs hi ?_
    rw [Token.role_of_isOpening _ keyword.property]
    simp [Registry.respond, hn, Scope.documented]
  | cons t leading ih =>
    obtain ⟨t, ht⟩ := t
    simp only [List.map_cons, List.cons_append]
    rw [← List.singleton_append]
    by_cases htag : t.isTagComment = true
    · by_cases ha : o.settings.accepts t.tag.name = true
      · -- From here on the scope is there, as it is before an outermost construct.
        have hd : t.documents o.settings.accepts = true := by simp [Token.documents, htag, ha]
        have hx : r.respond c s (t.role o.settings.accepts) =
            .ok (r.push ((r.inner c).withTag t.tag), some r.size) := by
          rw [Token.role_of_isTagComment _ htag, if_pos ha]
          simp [Registry.respond, hn]
        have hnext := leads_leading (o := o) (r.get?_push_size ((r.inner c).withTag t.tag))
          (.inr rfl) rfl leading keyword
        rw [Registry.set_push_size, ← Scope.documented_cons_of_pos hd] at hnext
        exact (Leads.step hs hi hx).append hnext
      · -- A tag that is left out opens the scope as well, but leaves it without the tag.
        have hd : ¬t.documents o.settings.accepts = true := by simp [Token.documents, ha]
        have hx : r.respond c s (t.role o.settings.accepts) =
            .ok (r.push (r.inner c), some r.size) := by
          rw [Token.role_of_isTagComment _ htag, if_neg ha]
          simp [Registry.respond, hn]
        have hnext := leads_leading (o := o) (r.get?_push_size (r.inner c)) (.inl rfl) rfl
          leading keyword
        rw [Registry.set_push_size, ← Scope.documented_cons_of_neg hd] at hnext
        exact (Leads.step hs hi hx).append hnext
    · have hno : t.isNoise = true := by simpa [htag] using ht
      have hd : ¬t.documents o.settings.accepts = true := by simp [Token.documents, htag]
      have hx := Registry.respond_of_isNoise (r := r) (c := c) (s := s) (by simp [hn]) hno
        o.settings.accepts
      rw [Scope.documented_cons_of_neg hd]
      exact (Leads.step hs hi hx).append ih

/-- What stands between the keyword of a construct and its name does nothing, and the name is
    taken. -/
private theorem leads_name (hs : r.get? c = some s) (hi : s.Intact) (hst : s.status = .awaitingName)
    (filler : List (TokenOf Token.isFiller)) (name : TokenOf Token.isProperName) :
    Leads o r c (filler.map (·.val) ++ [name.val])
      (r.set c (s.called name.val.text name.val.location)) c := by
  refine Leads.append (Leads.stay hs hi ?_) (Leads.step hs hi ?_)
  · intro t ht
    obtain ⟨t, _, rfl⟩ := List.mem_map.mp ht
    rw [Token.role_of_isFiller _ t.property]
    rfl
  · rw [Token.role_of_isProperName _ name.property]
    simp [Registry.respond, hst]

end Scan

/-! ## Whole outlines -/

namespace Registry

/-- The registry with more scopes after its own. -/
def extend (r : Registry) (more : List Scope) : Registry := ⟨r.scopes ++ more⟩

/-- No scopes more. -/
@[simp] theorem extend_nil (r : Registry) : r.extend [] = r := by simp [extend]

/-- To add one scope and then more is to add all of them. -/
private theorem extend_push (r : Registry) (s : Scope) (more : List Scope) :
    (r.push s).extend more = r.extend (s :: more) := by
  simp [extend, push]

/-- Scopes in two goes. -/
private theorem extend_extend (r : Registry) (more more' : List Scope) :
    (r.extend more).extend more' = r.extend (more ++ more') := by
  simp [extend]

/-- Adding scopes makes a registry larger by their number. -/
private theorem size_extend (r : Registry) (more : List Scope) :
    (r.extend more).size = r.size + more.length := by
  simp [extend, size]

/-- The scopes in front stay. -/
private theorem get?_extend_of_lt {r : Registry} {i : Nat} (h : i < r.size) (more : List Scope) :
    (r.extend more).get? i = r.get? i :=
  List.getElem?_append_left h

/-- The first of the new ones is behind them. -/
private theorem get?_extend_cons (r : Registry) (s : Scope) (more : List Scope) :
    (r.extend (s :: more)).get? r.size = some s := by
  simp [extend, get?, size]

/-- The first of the scopes that are added can be changed. -/
private theorem set_extend_cons (r : Registry) (s s' : Scope) (more : List Scope) :
    (r.extend (s :: more)).set r.size s' = r.extend (s' :: more) := by
  simp [extend, set, size]

end Registry

namespace Outline

variable {o : Scan.Options} {r : Registry} {c : Nat} {s : Scope}

/-- The scope of a construct whose scope was `s` before the comments that document it. -/
def scopeFrom (accepts : String → Bool) (s : Scope) (leading : List Token) (keyword name : Token) :
    Scope :=
  (((s.documented accepts leading).awaiting keyword.construct).called name.text name.location).shut

/-- All that a construct makes of a new scope. -/
private theorem scopeFrom_eq (accepts : String → Bool) (id : Int) (parent : Option Nat)
    (leading : List Token) (keyword name : Token) :
    scopeFrom accepts { id, arena := some Scan.arena, parent } leading keyword name =
      { id
        arena := some Scan.arena
        parent
        name := some name.text
        construct := keyword.construct
        status := .closed
        tags := tagsOf accepts leading
        location := name.location
        frozen := true } := by
  rw [scopeFrom, Scope.documented_awaiting, Option.or_none]
  rfl

/-- What the tokens of an outline do inside of any named scope. -/
def FitsInside (o : Scan.Options) (outline : Outline) : Prop :=
  ∀ (r : Registry) (c : Nat) (s : Scope), r.Coherent o.settings.policy c → r.get? c = some s →
    s.status = .named →
    Scan.Leads o r c outline.tokens
      (r.extend (outline.scopes o.settings.accepts (some c) r.size)) c

/-- A construct from after its keyword to before its `end`. -/
private theorem leads_inside {body : Outline} (hbody : body.FitsInside o)
    (filler : List (TokenOf Token.isFiller)) (name : TokenOf Token.isProperName)
    (hst : s.status = .awaitingName) (hr : (r.push s).Coherent o.settings.policy r.size) :
    Scan.Leads o (r.push s) r.size (filler.map (·.val) ++ [name.val] ++ body.tokens)
      (r.extend (s.called name.val.text name.val.location ::
        body.scopes o.settings.accepts (some r.size) (r.size + 1))) r.size := by
  have hi := (hr.arranged _ s (r.get?_push_size s)).intact
  have hname := Scan.leads_name (o := o) (r.get?_push_size s) hi hst filler name
  have hr' := hname.coherent hr
  rw [Registry.set_push_size] at hname hr'
  have hin := hbody _ _ _ hr' (r.get?_push_size (s.called name.val.text name.val.location)) rfl
  rw [Registry.extend_push, Registry.size_push] at hin
  exact hname.append hin

/-- The `end` of a construct inside of scope `c` makes that scope current again. -/
private theorem leads_close_inside {more : List Scope} (close : TokenOf Token.isScopeEnd)
    (hn : s.status = .named) (hp : s.parent = some c)
    (hr : (r.extend (s :: more)).Coherent o.settings.policy r.size) :
    Scan.Leads o (r.extend (s :: more)) r.size [close.val] (r.extend (s.shut :: more)) c := by
  have hs := r.get?_extend_cons s more
  refine Scan.Leads.step hs (hr.arranged _ s hs).intact ?_
  rw [Token.role_eq_closes_iff.mpr close.property]
  simp only [Registry.respond, hn, hp, Registry.set_extend_cons]

/-- The `end` of an outermost construct makes a new outermost scope current. -/
private theorem leads_close_top {more : List Scope} (close : TokenOf Token.isScopeEnd)
    (hn : s.status = .named) (hp : s.parent = none)
    (hr : (r.extend (s :: more)).Coherent o.settings.policy r.size) :
    Scan.Leads o (r.extend (s :: more)) r.size [close.val]
      ((r.extend (s.shut :: more)).push
        { id := (r.extend (s.shut :: more)).size, arena := some Scan.arena })
      (r.extend (s.shut :: more)).size := by
  have hs := r.get?_extend_cons s more
  have hplaced := hr.arranged _ s hs
  have harr : (r.extend (s.shut :: more)).Arranged := by
    rw [← Registry.set_extend_cons r s]
    exact Registry.arranged_set hr.arranged (Registry.lt_size_of_get? hs)
      (Registry.Coherent.placed_shut hplaced hn)
  refine Scan.Leads.single (x := (r.extend (s.shut :: more), none)) hs hplaced.intact ?_ ?_
  · rw [Token.role_eq_closes_iff.mpr close.property]
    simp only [Registry.respond, hn, hp, Registry.set_extend_cons]
  · intro consumed skipped
    simp only [Scan.moved, Registry.addRoot_eq harr]

/-- The tokens of an outline inside of a named scope lead back to it. -/
theorem leads_body (o : Scan.Options) (outline : Outline) : outline.FitsInside o := by
  -- By induction on the outline: the body lies in the scope of its construct, the rest in this one.
  induction outline with
  | nil noise =>
    -- A name means nothing to a scope that has one.
    intro r c s hr hs hn
    have hi := (hr.arranged c s hs).intact
    simp only [scopes, Registry.extend_nil]
    refine Scan.Leads.stay hs hi ?_
    intro t ht
    obtain ⟨t, _, rfl⟩ := List.mem_map.mp ht
    exact Registry.respond_of_isNoise (by simp [hn]) t.property _
  | cons leading keyword filler name body close rest ihb ihr =>
    intro r c s hr hs hn
    have hi := (hr.arranged c s hs).intact
    have hc := Registry.lt_size_of_get? hs
    -- The keyword, then the name and the body, then the `end`, then the constructs that follow.
    have h1 := Scan.leads_leading_inside (o := o) hs hi hn leading keyword
    have hr1 := h1.coherent hr
    have h2 := leads_inside ihb filler name rfl hr1
    have hr2 := h2.coherent hr1
    have h3 := leads_close_inside (c := c) close rfl
      (by simp only [Scope.called, Scope.documented_awaiting]; rfl) hr2
    have h4 := ihr _ c s (h3.coherent hr2) ((Registry.get?_extend_of_lt hc _).trans hs) hn
    have h := ((h1.append h2).append h3).append h4
    simp only [List.append_assoc] at h
    -- What is left is to see that the scopes are those of the outline, with their numbers.
    have hscope := scopeFrom_eq o.settings.accepts r.size (some c) (leading.map (·.val))
      keyword.val name.val
    rw [← Registry.inner_eq hr.arranged hs] at hscope
    simp only [tokens, List.append_assoc, scopes, ← hscope]
    rw [Registry.extend_extend, Registry.size_extend, List.length_cons, length_scopes,
      Nat.add_comm body.size 1, ← Nat.add_assoc] at h
    exact h

/-- The tokens of an outline where an outermost scope waits for its first construct lead to another
    one that waits. -/
theorem leads_top (o : Scan.Options) (outline : Outline) (r : Registry)
    (hr : (r.push { id := r.size, arena := some Scan.arena }).Coherent o.settings.policy r.size) :
    Scan.Leads o (r.push { id := r.size, arena := some Scan.arena }) r.size outline.tokens
      ((r.extend (outline.scopes o.settings.accepts none r.size)).push
        { id := (r.size + outline.size : Nat), arena := some Scan.arena })
      (r.size + outline.size) := by
  induction outline generalizing r with
  | nil noise =>
    simp only [scopes, Registry.extend_nil, size, Nat.add_zero]
    refine Scan.Leads.stay (r.get?_push_size _) (by simp [Scope.Intact]) ?_
    intro t ht
    obtain ⟨t, _, rfl⟩ := List.mem_map.mp ht
    exact Registry.respond_of_isNoise (by simp) t.property _
  | cons leading keyword filler name body close rest ihb ihr =>
    -- The body lies inside of a named scope, so it is `leads_body` that speaks of it.
    have hs := r.get?_push_size { id := r.size, arena := some Scan.arena }
    have h1 := Scan.leads_leading (o := o) hs (.inl rfl) rfl leading keyword
    have hr1 := h1.coherent hr
    rw [Registry.set_push_size] at h1 hr1
    have h2 := leads_inside (leads_body o body) filler name rfl hr1
    have hr2 := h2.coherent hr1
    have h3 := leads_close_top close rfl
      (by simp only [Scope.called, Scope.documented_awaiting]) hr2
    have h4 := ihr _ (h3.coherent hr2)
    have h := ((h1.append h2).append h3).append h4
    simp only [List.append_assoc] at h
    have hscope := scopeFrom_eq o.settings.accepts r.size none (leading.map (·.val))
      keyword.val name.val
    simp only [tokens, List.append_assoc, scopes, ← hscope]
    rw [Registry.extend_extend, Registry.size_extend, List.length_cons, length_scopes,
      Nat.add_comm body.size 1, ← Nat.add_assoc] at h
    have hsize : r.size + (1 + body.size + rest.size) = r.size + 1 + body.size + rest.size := by
      omega
    rw [size, hsize]
    exact h

end Outline

/-! ## Qualified names -/

namespace Registry

variable {r : Registry} {i : Nat} {s : Scope}

/-- The names on the way to a scope are those around it and its own. -/
theorem path_eq (hs : r.get? i = some s) (hp : ∀ p, s.parent = some p → p < i) :
    r.path i = s.parent.elim [] r.path ++ s.name.toList := by
  rw [path, hs]
  cases hpar : s.parent with
  | none => simp [hpar]
  | some p => simp [hpar, hp p hpar]

/-- A qualified name is put together from the names around and its own. -/
theorem qualifiedName_eq {name : String} (hs : r.get? i = some s) (hn : s.isNamed = true)
    (hname : s.name = some name) {around : List String}
    (haround : s.parent.elim [] r.path = around) :
    r.qualifiedName i = some (if around = [] then name
      else String.intercalate "::" around ++
        (if s.construct = some .instanceMethod then "#" else "::") ++ name) := by
  rw [qualifiedName, hs]
  simp only [hn, if_true, haround]
  -- An outermost scope has no separator before its name.
  cases around with
  | nil => exact hname
  | cons a around => simp [hname]

end Registry

namespace Outline

/-- The scopes of an outline that stands anywhere in a registry have the qualified names of the
    outline. -/
theorem map_qualifiedName {r : Registry} {accepts : String → Bool} (outline : Outline)
    (pre post : List Scope) (parent : Option Nat)
    (hr : r.scopes = pre ++ outline.scopes accepts parent pre.length ++ post)
    (hp : ∀ p, parent = some p → p < pre.length) {around : List String}
    (haround : parent.elim [] r.path = around) :
    (List.range' pre.length outline.size).map r.qualifiedName =
      (outline.qualifiedNames around).map some := by
  induction outline generalizing pre post parent around with
  | nil noise => rfl
  | cons leading keyword filler name body close rest ihb ihr =>
    rw [scopes] at hr
    -- `e` is the scope of the first construct; what is inside of it has it as the parent.
    generalize he : Scope.mk (pre.length : Int) (some Scan.arena) parent (some name.val.text)
      keyword.val.construct .closed (tagsOf accepts (leading.map (·.val))) name.val.location true
      = e at hr
    have hget : r.get? pre.length = some e := by simp [Registry.get?, hr]
    have hep : e.parent = parent := by rw [← he]
    have hen : e.name = some name.val.text := by rw [← he]
    have hec : e.construct = keyword.val.construct := by rw [← he]
    have hnamed : e.isNamed = true := by simp [Scope.isNamed, ← he]
    have hpath : r.path pre.length = around ++ [name.val.text] := by
      rw [Registry.path_eq hget (hep ▸ hp), hep, haround, hen]
      rfl
    have hself := Registry.qualifiedName_eq hget hnamed hen (hep ▸ haround)
    -- The scopes inside come right after `e`, and those that follow come after them.
    have hbody := ihb (pre ++ [e]) (rest.scopes accepts parent (pre.length + 1 + body.size) ++ post)
      (some pre.length) (by simp [hr]) (by simp) hpath
    have hlen : (pre ++ e :: body.scopes accepts (some pre.length) (pre.length + 1)).length =
        pre.length + 1 + body.size := by
      rw [List.length_append, List.length_cons, length_scopes]
      omega
    have hrest := ihr (pre ++ e :: body.scopes accepts (some pre.length) (pre.length + 1)) post
      parent (by simp [hr, hlen]) (fun p h => by have := hp p h; omega) haround
    rw [hlen] at hrest
    rw [List.length_append, List.length_singleton] at hbody
    have hrange : List.range' pre.length (1 + body.size + rest.size) =
        pre.length :: (List.range' (pre.length + 1) body.size ++
          List.range' (pre.length + 1 + body.size) rest.size) := by
      rw [Nat.add_assoc, Nat.add_comm 1, List.range'_succ, List.range'_append_1]
    rw [size, hrange, List.map_cons, List.map_append, hself, hbody, hrest, hec, qualifiedNames,
      List.map_cons, List.map_append]

/-- Scanning the tokens of an outline, with whatever tags of interest and under either policy, comes
    to its end without passing over a token.  It gives one scope for each construct, in the order in
    which the constructs begin, and after them an outermost scope for which nothing has come.  The
    scope of a construct is closed, lies in the scope of the construct around it, has the name and
    its place, what the keyword stands for, and the tags of interest before the keyword; its
    qualified name is made of the names around it and its own. -/
theorem scan_tokens (o : Scan.Options) (outline : Outline) :
    let options := { o with cancelAfter := none }
    let registry : Registry :=
      ⟨outline.scopes o.settings.accepts none 0 ++
        [{ id := outline.size, arena := some Scan.arena }]⟩
    ((Input.tokens outline.tokens).scan options).result? options =
        .ok { registry, file := o.file, tokens := outline.tokens.length, skipped := 0 } ∧
      (List.range outline.size).map registry.qualifiedName =
        (outline.qualifiedNames []).map some := by
  intro options registry
  constructor
  · have hlead := leads_top options outline {} (Scan.start_coherent _)
    have hsize : ({} : Registry).size = 0 := rfl
    rw [hsize, Nat.zero_add] at hlead
    exact Scan.Leads.result?_eq hlead rfl
  · rw [List.range_eq_range']
    exact map_qualifiedName outline [] _ none rfl (by simp) rfl

end Outline

end ScopeTags
