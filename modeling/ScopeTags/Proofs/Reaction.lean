import ScopeTags.Scan

/-!
# What a token does to scopes

A token matters to scopes only by its `Role`: it does nothing, carries a tag, opens or ends a
construct, or gives a name.  `Registry.respond` says for every role and every status of the current
scope what becomes of the registry and which scope receives the next token.

## Key results

- `Scope.tag_eq`, `Scope.awaitName_eq`, `Scope.assignName_eq`, `Scope.close_eq`: the operations on
  a scope by its status
- `Registry.react_eq`: a reaction is the response to the role of the token
-/

namespace ScopeTags

/-! ## The lifecycle, event by event -/

/-- Tags come before the keyword. -/
private theorem next?_tag (s : Status) :
    lifecycle.next? "tag" s = if s = .pending ∨ s = .tagged then some .tagged else none := by
  cases s <;> rfl

/-- The keyword comes before the name, and may come again. -/
private theorem next?_awaitName (s : Status) :
    lifecycle.next? "await_name" s =
      if s = .pending ∨ s = .tagged ∨ s = .awaitingName then some .awaitingName else none := by
  cases s <;> rfl

/-- The name comes after the keyword. -/
theorem next?_name (s : Status) :
    lifecycle.next? "name" s = if s = .awaitingName ∨ s = .named then some .named else none := by
  cases s <;> rfl

/-- Only what has a name is closed. -/
private theorem next?_close (s : Status) :
    lifecycle.next? "close" s = if s = .named ∨ s = .closed then some .closed else none := by
  cases s <;> rfl

namespace Scope

/-- The scope with one more tag. -/
def withTag (s : Scope) (tag : Tag) : Scope :=
  { s with status := .tagged, tags := s.tags.insert tag }

/-- The scope once its keyword has come. -/
def awaiting (s : Scope) (construct : Option Construct) : Scope :=
  { s with status := .awaitingName, construct := construct.or s.construct }

/-- The scope once its name has come. -/
def called (s : Scope) (name : String) (location : Location) : Scope :=
  { s with status := .named, name := some name, location }

/-- The scope once it has been left. -/
def shut (s : Scope) : Scope := { s with status := .closed, frozen := true }

/-- The scope has been frozen exactly if it is closed. -/
def Intact (s : Scope) : Prop := s.frozen = true ↔ s.status = .closed

/-- An event moves a scope that is not closed along the lifecycle. -/
theorem trigger_eq {s : Scope} (h : s.Intact) (hs : s.status ≠ .closed) (event : String) :
    s.trigger event = match lifecycle.next? event s.status with
      | none => .error (s.refuse event)
      | some target => .ok { s with status := target } := by
  have hf : s.frozen = false := by
    rw [← Bool.not_eq_true]
    exact fun hf => hs (h.mp hf)
  rw [trigger]
  cases lifecycle.next? event s.status with
  | none => rfl
  | some target =>
    dsimp only
    split
    · next heq => rw [heq]
    · simp [setStatus, hf]

/-- A tag is added before the keyword has come. -/
theorem tag_eq {s : Scope} (h : s.Intact) (t : Tag) :
    s.tag t = if s.status = .pending ∨ s.status = .tagged then .ok (s.withTag t)
      else .error (s.refuse "tag") := by
  -- A closed scope is frozen, so the event is looked up before anything is written.
  by_cases hs : s.status = .closed
  · simp [tag, trigger, next?_tag, hs, bind, Except.bind]
  · rw [tag, trigger_eq h hs, next?_tag]
    by_cases hp : s.status = .pending ∨ s.status = .tagged
    · rw [if_pos hp, if_pos hp]
      rfl
    · rw [if_neg hp, if_neg hp]
      rfl

/-- The keyword is taken before the name has come. -/
theorem awaitName_eq {s : Scope} (h : s.Intact) (construct : Option Construct) :
    s.awaitName construct =
      if s.status = .pending ∨ s.status = .tagged ∨ s.status = .awaitingName then
        .ok (s.awaiting construct)
      else .error (s.refuse "await_name") := by
  by_cases hs : s.status = .closed
  · simp [awaitName, trigger, next?_awaitName, hs, bind, Except.bind]
  · rw [awaitName, trigger_eq h hs, next?_awaitName]
    by_cases hp : s.status = .pending ∨ s.status = .tagged ∨ s.status = .awaitingName
    · rw [if_pos hp, if_pos hp]
      rfl
    · rw [if_neg hp, if_neg hp]
      rfl

/-- The name is taken while it is awaited. -/
theorem assignName_eq {s : Scope} (h : s.Intact) (hs : s.status = .awaitingName) (name : String)
    (location : Location) : s.assignName name (some location) = .ok (s.called name location) := by
  rw [assignName, trigger_eq h (by simp [hs]), next?_name]
  simp [hs, called, bind, Except.bind, pure, Except.pure]

/-- A named scope is shut, and a closed one is left as it is. -/
theorem close_eq {s : Scope} (h : s.Intact) :
    s.close = match s.status with
      | .named => .ok s.shut
      | .closed => .ok s
      | _ => .error (s.refuse "close") := by
  by_cases hs : s.status = .closed
  · simp [close, h.mpr hs, hs, pure, Except.pure]
  -- Only a scope that is not frozen asks the lifecycle.
  · have hf : ¬s.frozen = true := fun hf => hs (h.mp hf)
    rw [close, if_neg hf, trigger_eq h hs, next?_close]
    cases hst : s.status <;> simp_all [shut, bind, Except.bind, pure, Except.pure]

end Scope

/-! ## Roles -/

/-- What a token means to scopes, where some tag names are of interest and others are not. -/
inductive Role where
  | idle
  /-- A tag of interest. -/
  | tag (tag : Tag)
  /-- A tag that is left out. -/
  | drop
  /-- The keyword of a construct. -/
  | opens (construct : Option Construct)
  /-- The `end` of a construct. -/
  | closes
  /-- A possible name. -/
  | names (text : String) (location : Location)
deriving DecidableEq

namespace Token

/-- The tag that a comment carries, if it carries one. -/
def tag (t : Token) : Tag := ⟨t.tagName.getD "", t.tagValue.getD ""⟩

/-- The role of a token. -/
def role (accepts : String → Bool) (t : Token) : Role :=
  match t.kind with
  | .comment =>
    if t.isTagComment then if accepts t.tag.name then .tag t.tag else .drop else .idle
  | .keyword =>
    match t.keywordClass with
    | some .newScope => .opens t.construct
    | some .scopeEnd => .closes
    | _ => .idle
  | .identifier | .constant =>
    if t.text ∈ ignoredNames then .idle else .names t.text t.location

/-- To close is to be the end of a construct, whatever tags are of interest. -/
theorem role_eq_closes_iff {accepts : String → Bool} {t : Token} :
    t.role accepts = .closes ↔ t.isScopeEnd = true := by
  simp only [role, isScopeEnd]
  cases t.kind <;> grind

end Token

namespace Registry

/-- The registry with `s` as its last scope. -/
def push (r : Registry) (s : Scope) : Registry := ⟨r.scopes ++ [s]⟩

/-- The scope that scope `i` opens inside of itself, as it is at first. -/
def inner (r : Registry) (i : Nat) : Scope :=
  let arena := (r.get? i).bind (·.arena)
  { id := r.nextId arena, arena, parent := some i }

@[simp] theorem size_push (r : Registry) (s : Scope) : (r.push s).size = r.size + 1 := by
  simp [push, size]

@[simp] theorem get?_push_size (r : Registry) (s : Scope) : (r.push s).get? r.size = some s := by
  simp [push, get?, size]

theorem get?_push_of_lt {r : Registry} {i : Nat} (h : i < r.size) (s : Scope) :
    (r.push s).get? i = r.get? i :=
  List.getElem?_append_left h

@[simp] theorem set_push_size (r : Registry) (s s' : Scope) :
    (r.push s).set r.size s' = r.push s' := by
  simp [push, set, size]

theorem lt_size_of_get? {r : Registry} {i : Nat} {s : Scope} (h : r.get? i = some s) :
    i < r.size :=
  (List.getElem?_eq_some_iff.mp h).1

/-- A scope is one of those before or the new one. -/
theorem get?_push_cases {r : Registry} {i : Nat} {s s' : Scope}
    (hi : (r.push s').get? i = some s) :
    (i < r.size ∧ r.get? i = some s) ∨ (i = r.size ∧ s = s') := by
  have hlt := lt_size_of_get? hi
  rw [size_push] at hlt
  rcases Nat.lt_succ_iff_lt_or_eq.mp hlt with hlt | rfl
  · rw [get?_push_of_lt hlt] at hi
    exact .inl ⟨hlt, hi⟩
  · rw [get?_push_size] at hi
    exact .inr ⟨rfl, (Option.some.inj hi).symm⟩

/-- A scope is the one that was changed or one of the others. -/
theorem get?_set_cases {r : Registry} {c i : Nat} {s s' : Scope} (hc : c < r.size)
    (hi : (r.set c s').get? i = some s) : (i = c ∧ s = s') ∨ r.get? i = some s := by
  by_cases hci : c = i
  · subst hci
    rw [get?_set_self hc] at hi
    exact .inl ⟨rfl, (Option.some.inj hi).symm⟩
  · rw [get?_set_ne hci] at hi
    exact .inr hi

/-- To put a scope where it is changes nothing. -/
theorem set_get? {r : Registry} {i : Nat} {s : Scope} (h : r.get? i = some s) : r.set i s = r := by
  obtain ⟨scopes⟩ := r
  obtain ⟨hi, rfl⟩ := List.getElem?_eq_some_iff.mp h
  simp [set]

theorem set_set (r : Registry) (i : Nat) (s s' : Scope) : (r.set i s).set i s' = r.set i s' := by
  simp [set]

/-- What a token of that role does while scope `i`, which is `s`, is current: the registry after
    it, and the scope that receives the next token. -/
def respond (r : Registry) (i : Nat) (s : Scope) : Role → Except Fault (Registry × Option Nat)
  | .idle => .ok (r, some i)
  | .tag tag =>
    match s.status with
    | .pending | .tagged => .ok (r.set i (s.withTag tag), some i)
    | .named => .ok (r.push ((r.inner i).withTag tag), some r.size)
    | _ => .error (s.refuse "tag")
  | .drop =>
    match s.status with
    | .named => .ok (r.push (r.inner i), some r.size)
    | _ => .ok (r, some i)
  | .opens construct =>
    match s.status with
    | .named => .ok (r.push ((r.inner i).awaiting construct), some r.size)
    | .closed => .error (s.refuse "await_name")
    | _ => .ok (r.set i (s.awaiting construct), some i)
  | .closes =>
    match s.status with
    | .named => .ok (r.set i s.shut, s.parent)
    | .closed => .ok (r, s.parent)
    | _ => .error (s.refuse "close")
  | .names text location =>
    match s.status with
    | .awaitingName => .ok (r.set i (s.called text location), some i)
    | _ => .ok (r, some i)

/-- The registry and the receiver of a reaction, its notices aside. -/
def outcome (x : Except Fault Reaction) : Except Fault (Registry × Option Nat) :=
  x.map fun reaction => (reaction.registry, reaction.receiver)

theorem inner_intact (r : Registry) (i : Nat) : (r.inner i).Intact := by
  simp [inner, Scope.Intact]

section Respond

variable {r : Registry} {i : Nat} {s : Scope}

/-- A named scope opens one inside of it for what follows. -/
theorem receiverAt_of_named (h : r.get? i = some s) (hs : s.status = .named) :
    ∃ notices, r.receiverAt i = (r.push (r.inner i), r.size, notices) := by
  simp only [receiverAt, h, Option.any_some, hs, decide_true, if_true]
  exact ⟨_, rfl⟩

/-- Any other scope takes what follows itself. -/
theorem receiverAt_of_not_named (h : r.get? i = some s) (hs : s.status ≠ .named) :
    r.receiverAt i = (r, i, []) := by
  simp [receiverAt, h, hs]

/-- A reaction that changes scope `j` goes as the operation on that scope does. -/
private theorem outcome_change {j : Nat} (h : r.get? j = some s) (event : String)
    (operation : Scope → Except Fault Scope) (receiver : Option Nat) (notices : List Notice) :
    outcome (match r.change j event operation with
      | .error fault => .error fault
      | .ok (registry, more) => .ok { registry, receiver, notices := notices ++ more }) =
      (operation s).map fun s' => (r.set j s', receiver) := by
  simp only [change, h]
  cases operation s <;> rfl

/-- A comment carries a tag that is of interest, one that is not, or none. -/
private theorem onComment_eq (h : r.get? i = some s) (hs : s.Intact) (accepts : String → Bool)
    {t : Token} (ht : t.kind = .comment) :
    outcome (r.onComment i accepts t) = r.respond i s (t.role accepts) := by
  simp only [onComment, Token.role, ht]
  by_cases htag : t.isTagComment = true
  · rw [if_pos htag, if_pos htag]
    by_cases hn : s.status = .named
    · -- The tag is meant for a scope that is opened for it.
      obtain ⟨notices, hr⟩ := receiverAt_of_named h hn
      rw [hr]
      dsimp only
      by_cases ha : accepts (t.tagName.getD "") = true
      · rw [if_pos ha, if_pos (show accepts t.tag.name = true from ha)]
        refine (outcome_change (get?_push_size r _) _ _ _ _).trans ?_
        rw [Scope.tag_eq (r.inner_intact i)]
        simp [respond, hn, inner, Except.map, Token.tag]
      · rw [if_neg ha, if_neg (show ¬accepts t.tag.name = true from ha)]
        simp [outcome, respond, hn, Except.map]
    -- The tag is meant for the current scope.
    · rw [receiverAt_of_not_named h hn]
      dsimp only
      by_cases ha : accepts (t.tagName.getD "") = true
      · rw [if_pos ha, if_pos (show accepts t.tag.name = true from ha)]
        refine (outcome_change h _ _ _ _).trans ?_
        rw [Scope.tag_eq hs]
        cases hst : s.status <;> simp_all [respond, Except.map, Token.tag]
      · rw [if_neg ha, if_neg (show ¬accepts t.tag.name = true from ha)]
        cases hst : s.status <;> simp_all [outcome, respond, Except.map]
  · simp [htag, outcome, respond, Except.map]

/-- An `end` closes a named scope and leaves a closed one as it is. -/
theorem close_eq (h : r.get? i = some s) (hs : s.Intact) :
    (r.close i).map Prod.fst = match s.status with
      | .named => .ok (r.set i s.shut)
      | .closed => .ok r
      | _ => .error (s.refuse "close") := by
  simp only [close, change, h, Scope.close_eq hs]
  cases hst : s.status with
  | pending => rfl
  | tagged => rfl
  | awaitingName => rfl
  | named =>
    dsimp only
    split <;> rfl
  | closed =>
    dsimp only
    rw [set_get? h]
    split <;> rfl

/-- A keyword opens a construct, ends one, or does nothing. -/
private theorem onKeyword_eq (h : r.get? i = some s) (hs : s.Intact) (accepts : String → Bool)
    {t : Token} (ht : t.kind = .keyword) :
    outcome (r.onKeyword i t) = r.respond i s (t.role accepts) := by
  have hrole : t.role accepts = match t.keywordClass with
      | some .newScope => .opens t.construct
      | some .scopeEnd => .closes
      | _ => .idle := by
    simp only [Token.role, ht]
  rw [hrole, onKeyword]
  match t.keywordClass with
  | some .newScope =>
    dsimp only
    -- Inside of a named scope the construct is a new one; elsewhere it is the one that is current.
    by_cases hn : s.status = .named
    · obtain ⟨notices, hr⟩ := receiverAt_of_named h hn
      rw [hr]
      refine (outcome_change (get?_push_size r _) _ _ _ _).trans ?_
      rw [Scope.awaitName_eq (r.inner_intact i)]
      simp [respond, hn, inner, Except.map]
    · rw [receiverAt_of_not_named h hn]
      refine (outcome_change h _ _ _ _).trans ?_
      rw [Scope.awaitName_eq hs]
      cases hst : s.status <;> simp_all [respond, Except.map]
  | some .scopeEnd =>
    have hc := close_eq h hs
    dsimp only [respond]
    rw [h, Option.bind_some]
    cases hrc : r.close i with
    | error fault =>
      rw [hrc] at hc
      cases hst : s.status <;> simp_all [outcome, Except.map]
    | ok change =>
      rw [hrc] at hc
      cases hst : s.status <;> simp_all [outcome, Except.map]
  | some .other => rfl
  | none => rfl

/-- A name is taken while one is awaited, unless it is an ignored one. -/
private theorem onName_eq (h : r.get? i = some s) (hs : s.Intact) (accepts : String → Bool)
    {t : Token} (ht : t.kind = .identifier ∨ t.kind = .constant) :
    outcome (r.onName i t) = r.respond i s (t.role accepts) := by
  have hrole : t.role accepts =
      if t.text ∈ ignoredNames then .idle else .names t.text t.location := by
    rcases ht with ht | ht <;> simp [Token.role, ht]
  rw [hrole, onName]
  by_cases hi : t.text ∈ ignoredNames
  · simp [hi, outcome, respond, Except.map]
  by_cases ha : s.status = .awaitingName
  · simp only [hi, h, Option.any_some, ha, decide_true, not_false_eq_true, and_self, if_true,
      if_false, assignName, change, Scope.assignName_eq hs ha]
    simp [outcome, respond, ha, Except.map]
  · simp only [hi, h, Option.any_some, ha]
    cases hst : s.status <;> simp_all [outcome, respond, Except.map]

/-- A reaction is the response to the role of the token. -/
theorem react_eq (h : r.get? i = some s) (hs : s.Intact) (accepts : String → Bool) (t : Token) :
    outcome (r.react i accepts t) = r.respond i s (t.role accepts) := by
  rw [react]
  split
  · next ht => exact onComment_eq h hs accepts ht
  · next ht => exact onKeyword_eq h hs accepts ht
  · next ht => exact onName_eq h hs accepts (.inl ht)
  · next ht => exact onName_eq h hs accepts (.inr ht)

end Respond

end Registry

end ScopeTags
