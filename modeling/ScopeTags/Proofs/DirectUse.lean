import ScopeTags.Proofs.InPlace

/-!
# Scopes used directly

Outside of a scan scopes can be worked on in any order, and with any tokens.  Whatever is done to
them, an operation succeeds or is refused because of the status of a scope, and then nothing has
changed.

## Key results

- `Registry.Changes`: everything that one operation can do
- `Operation.outcome_perform_cases`: it does that, or it is refused
- `Registry.Changes.valid`, `Registry.Changes.get?_of_closed`: what this keeps
- `Registry.carryOut_valid`: what holds after any operations
-/

namespace ScopeTags

namespace Scope

/-! ## One scope -/

/-- What holds of a scope at any time. -/
structure Valid (s : Scope) : Prop where
  frozen_iff : s.frozen = true ↔ s.status = .closed
  name_iff : s.name.isSome = true ↔ s.status = .named ∨ s.status = .closed
  tags_ne : s.status = .tagged → s.tags ≠ ∅
  tags_eq : s.status = .pending → s.tags = ∅
  construct_eq : s.status = .pending ∨ s.status = .tagged → s.construct = none

/-- The ways in which a scope goes from one moment to the next. -/
inductive Steps (s : Scope) : Scope → Prop where
  | tag (h : s.status = .pending ∨ s.status = .tagged) (added : Tag) : Steps s (s.withTag added)
  | awaitName (h : s.status = .pending ∨ s.status = .tagged ∨ s.status = .awaitingName)
      (construct : Option Construct) : Steps s (s.awaiting construct)
  | assignName (h : s.status = .awaitingName) (given : String) (location : Location) :
      Steps s (s.called given location)
  | close (h : s.status = .named) : Steps s s.shut

namespace Steps

variable {s s' : Scope}

/-- A closed scope takes no step. -/
private theorem status_ne (h : s.Steps s') : s.status ≠ .closed := by
  cases h with
  | tag h => rcases h with h | h <;> simp [h]
  | awaitName h => rcases h with h | h | h <;> simp [h]
  | assignName h => simp [h]
  | close h => simp [h]

/-- No step changes the id of a scope. -/
theorem id_eq (h : s.Steps s') : s'.id = s.id := by cases h <;> rfl

/-- A step leaves a scope in its arena. -/
theorem arena_eq (h : s.Steps s') : s'.arena = s.arena := by cases h <;> rfl

/-- What holds of a scope holds after every step. -/
theorem valid (h : s.Steps s') (hs : s.Valid) : s'.Valid := by
  have hopen := h.status_ne
  have hf : s.frozen = false := by
    rw [← Bool.not_eq_true, hs.frozen_iff]
    exact hopen
  have hname := hs.name_iff
  -- The status before the step tells which of the facts there is anything to say about after it.
  cases h with
  | tag h added =>
    refine ⟨by simp [withTag, hf], ?_, fun _ hempty => ?_, by simp [withTag], fun _ => ?_⟩
    · rcases h with h | h <;> simpa [withTag, h] using hname
    -- The tag that was added is there.
    · have hmem : added ∈ s.tags.insert added := Tags.mem_insert.mpr (.inl rfl)
      rw [show s.tags.insert added = ∅ from hempty] at hmem
      exact Tags.not_mem_empty added hmem
    · exact hs.construct_eq h
  | awaitName h construct =>
    refine ⟨by simp [awaiting, hf], ?_, by simp [awaiting], by simp [awaiting], by simp [awaiting]⟩
    rcases h with h | h | h <;> simpa [awaiting, h] using hname
  | assignName h given location =>
    exact ⟨by simp [called, hf], by simp [called], by simp [called], by simp [called],
      by simp [called]⟩
  | close h =>
    refine ⟨by simp [shut], ?_, by simp [shut], by simp [shut], by simp [shut]⟩
    simpa [shut, h] using hname

end Steps

/-- A scope that has just been made. -/
private theorem valid_new (id : Int) (arena : Option String) (parent : Option Nat) :
    ({ id, arena, parent } : Scope).Valid :=
  ⟨by simp, by simp, by simp, by simp, by simp⟩

/-- The operation takes a step, does nothing, or is refused because of the status. -/
def Lawful (operation : Scope → Except Fault Scope) : Prop :=
  ∀ s : Scope, s.Intact →
    (∃ s', operation s = .ok s' ∧ (s' = s ∨ s.Steps s')) ∨
      ∃ event, operation s = .error (s.refuse event)

/-- Tagging is lawful. -/
private theorem lawful_tag (added : Tag) : Lawful (·.tag added) := by
  intro s hs
  dsimp only
  rw [tag_eq hs]
  split
  · next h => exact .inl ⟨_, rfl, .inr (.tag h added)⟩
  · exact .inr ⟨"tag", rfl⟩

private theorem lawful_awaitName (construct : Option Construct) :
    Lawful (·.awaitName construct) := by
  intro s hs
  dsimp only
  rw [awaitName_eq hs]
  split
  · next h => exact .inl ⟨_, rfl, .inr (.awaitName h construct)⟩
  · exact .inr ⟨"await_name", rfl⟩

/-- Naming is lawful. -/
private theorem lawful_assignName (given : String) (location : Option Location) :
    Lawful (·.assignName given location) := by
  intro s hs
  dsimp only
  by_cases h : s.status = .awaitingName
  -- Without a location the scope keeps the one that it has.
  · refine .inl ⟨_, ?_, .inr (.assignName h given (location.getD s.location))⟩
    rw [assignName, trigger_eq hs (by simp [h]), next?_name]
    simp [h, called, bind, Except.bind, pure, Except.pure]
  · refine .inr ⟨"name", ?_⟩
    rw [assignName, if_pos h]
    rfl

/-- Closing is lawful: a closed scope is left as it is. -/
private theorem lawful_close : Lawful close := by
  intro s hs
  rw [close_eq hs]
  split
  · next h => exact .inl ⟨_, rfl, .inr (.close h)⟩
  · exact .inl ⟨_, rfl, .inl rfl⟩
  · exact .inr ⟨"close", rfl⟩

end Scope

namespace Registry

/-! ## One operation -/

/-- What one operation can make of a registry: a scope takes a step, or one is made, which may take
    a step at once. -/
inductive Changes (r : Registry) : Registry → Prop where
  | nothing : Changes r r
  | step {i : Nat} {s s' : Scope} (h : r.get? i = some s) (hs : s.Steps s') : Changes r (r.set i s')
  | make (arena : Option String) (parent : Option Nat) {s' : Scope}
      (hs : s' = { id := r.nextId arena, arena, parent } ∨
        Scope.Steps { id := r.nextId arena, arena, parent } s') : Changes r (r.push s')

/-- The registry changes as an operation can change it, or the operation is refused because of the
    status of a scope. -/
def Lawful {α : Type} (r : Registry) (x : Except Fault (Registry × α)) : Prop :=
  (∃ r' a, x = .ok (r', a) ∧ r.Changes r') ∨
    ∃ s ∈ r.scopes, ∃ event, x = .error (s.refuse event)

section Lawful

variable {r : Registry} {i : Nat} (hr : ∀ i s, r.get? i = some s → s.Intact)

/-- To do nothing is lawful. -/
private theorem lawful_nothing {α : Type} (r : Registry) (a : α) : r.Lawful (.ok (r, a)) :=
  .inl ⟨r, a, rfl, .nothing⟩

include hr

/-- An operation on one scope is lawful for the registry if it is for the scope. -/
private theorem lawful_amend {α : Type} (hi : i < r.size) {operation : Scope → Except Fault Scope}
    (h : Scope.Lawful operation) (a : α) : r.Lawful ((r.amend i operation).map (·, a)) := by
  have hs : r.get? i = some r.scopes[i] := List.getElem?_eq_getElem hi
  rw [amend, hs]
  -- The scope stays as it is, takes a step, or refuses.
  rcases h _ (hr i _ hs) with ⟨s', hs', rfl | hsteps⟩ | ⟨event, herror⟩
  · refine .inl ⟨_, a, congrArg (fun x => Except.map (·, a) (Except.map (r.set i) x)) hs', ?_⟩
    rw [set_get? hs]
    exact .nothing
  · exact .inl ⟨_, a, congrArg (fun x => Except.map (·, a) (Except.map (r.set i) x)) hs',
      .step hs hsteps⟩
  · exact .inr ⟨_, List.getElem_mem hi, event,
      congrArg (fun x => Except.map (·, a) (Except.map (r.set i) x)) herror⟩

/-- An operation on the scope for which a token is meant. -/
private theorem lawful_receiverAt {α : Type} (hi : i < r.size)
    {operation : Scope → Except Fault Scope} (h : Scope.Lawful operation) {s' : Scope}
    (hnew : operation (r.inner i) = .ok s') (a : α) :
    r.Lawful (((r.receiverAt i).1.amend (r.receiverAt i).2.1 operation).map (·, a)) := by
  have hs : r.get? i = some r.scopes[i] := List.getElem?_eq_getElem hi
  by_cases hn : r.scopes[i].status = .named
  · -- The scope that is made for it takes the step at once.
    obtain ⟨notices, hreceiver⟩ := receiverAt_of_named hs hn
    rw [hreceiver]
    refine .inl ⟨r.push s', a, ?_, .make ((r.get? i).bind (·.arena)) (some i) ?_⟩
    · simp only [amend, get?_push_size, hnew, Except.map, set_push_size]
    · rcases h _ (r.inner_intact i) with ⟨s'', hs'', hsteps⟩ | ⟨event, herror⟩
      · obtain rfl := Except.ok.inj (hnew.symm.trans hs'')
        exact hsteps
      · rw [hnew] at herror
        cases herror
  · rw [receiverAt_of_not_named hs hn]
    exact lawful_amend hr hi h a

end Lawful

end Registry

namespace Operation

/-- Whether the scopes are there that the operation is about. -/
def fits (r : Registry) : Operation → Bool
  | .create parent _ => parent.all (· < r.size)
  | .spawn i | .tag i _ | .awaitName i _ | .assignName i _ _ | .close i | .comment i _ _
  | .keyword i _ | .name i _ => i < r.size

variable {r : Registry} (hr : ∀ i s, r.get? i = some s → s.Intact)

include hr

/-- Reacting to a comment is lawful. -/
private theorem lawful_onComment {i : Nat} (hi : i < r.size) (accepts : String → Bool) (t : Token) :
    r.Lawful (Registry.outcome (r.onComment i accepts t)) := by
  rw [Registry.outcome_onComment]
  split
  · split
    · exact Registry.lawful_receiverAt hr hi (Scope.lawful_tag t.tag)
        ((Scope.tag_eq (r.inner_intact i) t.tag).trans (if_pos (.inl rfl))) _
    · -- A tag that is left out still has a scope made for it.
      have hs : r.get? i = some r.scopes[i] := List.getElem?_eq_getElem hi
      by_cases hn : r.scopes[i].status = .named
      · obtain ⟨notices, hreceiver⟩ := Registry.receiverAt_of_named hs hn
        rw [hreceiver]
        exact .inl ⟨_, _, rfl, .make ((r.get? i).bind (·.arena)) (some i) (.inl rfl)⟩
      · rw [Registry.receiverAt_of_not_named hs hn]
        exact r.lawful_nothing _
  · exact r.lawful_nothing _

/-- Reacting to a keyword is lawful. -/
private theorem lawful_onKeyword {i : Nat} (hi : i < r.size) (t : Token) :
    r.Lawful (Registry.outcome (r.onKeyword i t)) := by
  rcases ht : t.keywordClass with _ | (_ | _ | _)
  · rw [Registry.onKeyword, ht]
    exact r.lawful_nothing _
  · rw [Registry.outcome_onKeyword_newScope r i ht]
    exact Registry.lawful_receiverAt hr hi (Scope.lawful_awaitName t.construct)
      ((Scope.awaitName_eq (r.inner_intact i) t.construct).trans (if_pos (.inl rfl))) _
  · rw [Registry.outcome_onKeyword_scopeEnd r i ht]
    exact Registry.lawful_amend hr hi Scope.lawful_close _
  · rw [Registry.onKeyword, ht]
    exact r.lawful_nothing _

/-- Reacting to a name is lawful. -/
private theorem lawful_onName {i : Nat} (hi : i < r.size) (t : Token) :
    r.Lawful (Registry.outcome (r.onName i t)) := by
  rw [Registry.outcome_onName]
  split
  · exact Registry.lawful_amend hr hi (Scope.lawful_assignName t.text (some t.location)) _
  · exact r.lawful_nothing _

/-- An operation on scopes that are there changes one of them, makes one, or is refused. -/
theorem outcome_perform_cases (settings : Settings) {op : Operation}
    (hfits : op.fits r = true) : r.Lawful (Registry.outcome (op.perform settings r)) := by
  -- One lawful operation on a scope for each kind, and the reactions to tokens.
  cases op with
  | create parent arena =>
    rw [perform, if_pos (show parent.all (· < r.size) = true from hfits)]
    exact .inl ⟨_, _, rfl, .make _ parent (.inl rfl)⟩
  | spawn i =>
    have hi : i < r.size := of_decide_eq_true hfits
    rw [perform, show r.get? i = some r.scopes[i] from List.getElem?_eq_getElem hi]
    exact .inl ⟨_, _, rfl, .make _ (some i) (.inl rfl)⟩
  | tag i added =>
    rw [perform, Registry.outcome_quiet, Registry.tag, Registry.map_fst_change]
    exact Registry.lawful_amend hr (of_decide_eq_true hfits) (Scope.lawful_tag added) none
  | awaitName i construct =>
    rw [perform, Registry.outcome_quiet, Registry.awaitName, Registry.map_fst_change]
    exact Registry.lawful_amend hr (of_decide_eq_true hfits) (Scope.lawful_awaitName construct) none
  | assignName i given location =>
    rw [perform, Registry.outcome_quiet, Registry.assignName, Registry.map_fst_change]
    exact Registry.lawful_amend hr (of_decide_eq_true hfits)
      (Scope.lawful_assignName given location) none
  | close i =>
    rw [perform, Registry.outcome_quiet, Registry.map_fst_close]
    exact Registry.lawful_amend hr (of_decide_eq_true hfits) Scope.lawful_close none
  | comment i token filter =>
    cases filter with
    | none => exact lawful_onComment hr (of_decide_eq_true hfits) settings.accepts token
    | some filter =>
      exact lawful_onComment hr (of_decide_eq_true hfits) (fun tag => filter.accepts tag) token
  | keyword i token => exact lawful_onKeyword hr (of_decide_eq_true hfits) token
  | name i token => exact lawful_onName hr (of_decide_eq_true hfits) token

end Operation

namespace Registry

/-! ## What an operation keeps -/

/-- The scopes of every arena are numbered from zero, in the order in which they were made. -/
def Numbered (r : Registry) : Prop :=
  ∀ arena, (r.inArena arena).map (·.id) =
    (List.range (r.inArena arena).length).map fun n : Nat => (n : Int)

/-- What holds of a registry after any operations. -/
structure Valid (r : Registry) : Prop where
  scopes : ∀ i s, r.get? i = some s → s.Valid
  numbered : r.Numbered

private theorem valid_empty : ({} : Registry).Valid :=
  ⟨fun i s h => by simp [get?] at h, fun _ => rfl⟩

theorem Valid.intact {r : Registry} (h : r.Valid) (i : Nat) (s : Scope) (hs : r.get? i = some s) :
    s.Intact :=
  (h.scopes i s hs).frozen_iff

section Numbered

variable {r : Registry} {i : Nat} {s s' : Scope}

/-- A scope that keeps its arena and its id changes no ids. -/
private theorem map_id_inArena_set (hs : r.get? i = some s) (hid : s'.id = s.id)
    (harena : s'.arena = s.arena) (arena : String) :
    ((r.set i s').inArena arena).map (·.id) = (r.inArena arena).map (·.id) := by
  -- The ids of an arena depend on the arenas and ids of the scopes alone, and those did not change.
  have hfilterMap : ∀ scopes : List Scope,
      (scopes.filter fun s => s.arena = some arena).map (·.id) =
        (scopes.map fun s => (s.arena, s.id)).filterMap fun x =>
          if x.1 = some arena then some x.2 else none := by
    intro scopes
    induction scopes with
    | nil => rfl
    | cons s scopes ih => by_cases h : s.arena = some arena <;> simp [h, ih]
  have hsame : (r.scopes.set i s').map (fun s => (s.arena, s.id)) =
      r.scopes.map fun s => (s.arena, s.id) := by
    have hself : r.scopes.set i s = r.scopes := congrArg scopes (set_get? hs)
    rw [List.map_set, harena, hid, ← List.map_set (f := fun s : Scope => (s.arena, s.id)), hself]
  simp only [inArena, set, hfilterMap, hsame]

/-- The scopes stay numbered where one is changed but keeps its number and its arena. -/
theorem Numbered.set (h : r.Numbered) (hs : r.get? i = some s) (hid : s'.id = s.id)
    (harena : s'.arena = s.arena) : (r.set i s').Numbered := by
  intro arena
  have hids := map_id_inArena_set hs hid harena arena
  have hlength : ((r.set i s').inArena arena).length = (r.inArena arena).length := by
    simpa using congrArg List.length hids
  rw [hids, hlength]
  exact h arena

/-- A new scope gets the next number of its arena. -/
theorem Numbered.push (h : r.Numbered) (hid : s.id = r.nextId s.arena) : (r.push s).Numbered := by
  intro arena
  by_cases harena : s.arena = some arena
  · have hgrown : (r.push s).inArena arena = r.inArena arena ++ [s] := by
      simp [inArena, Registry.push, harena]
    rw [harena] at hid
    rw [hgrown, List.map_append, List.length_append, List.length_singleton, List.range_succ,
      List.map_append, h arena]
    simp [hid, nextId]
  · have hsame : (r.push s).inArena arena = r.inArena arena := by
      simp [inArena, Registry.push, harena]
    rw [hsame]
    exact h arena

end Numbered

namespace Changes

variable {r r' : Registry} {i : Nat} {s : Scope}

/-- What holds of a registry holds after every change. -/
theorem valid (h : r.Changes r') (hr : r.Valid) : r'.Valid := by
  cases h with
  | nothing => exact hr
  | @step i s s' hs hsteps =>
    refine ⟨fun j e he => ?_, hr.numbered.set hs hsteps.id_eq hsteps.arena_eq⟩
    rcases get?_set_cases (lt_size_of_get? hs) he with ⟨rfl, rfl⟩ | he
    · exact hsteps.valid (hr.scopes j s hs)
    · exact hr.scopes j e he
  | @make arena parent s' hs =>
    have hnew := Scope.valid_new (r.nextId arena) arena parent
    -- The new scope is as it was made, or has taken one step since, which keeps its number.
    obtain ⟨hvalid, hid, harena⟩ : s'.Valid ∧ s'.id = r.nextId arena ∧ s'.arena = arena := by
      rcases hs with rfl | hsteps
      · exact ⟨hnew, rfl, rfl⟩
      · exact ⟨hsteps.valid hnew, hsteps.id_eq, hsteps.arena_eq⟩
    refine ⟨fun j e he => ?_, hr.numbered.push (harena.symm ▸ hid)⟩
    rcases get?_push_cases he with ⟨_, he⟩ | ⟨rfl, rfl⟩
    · exact hr.scopes j e he
    · exact hvalid

/-- A closed scope takes no step. -/
theorem get?_of_closed (h : r.Changes r') (hs : r.get? i = some s)
    (hclosed : s.status = .closed) : r'.get? i = some s := by
  cases h with
  | nothing => exact hs
  | @step j e e' he hsteps =>
    have hj : j ≠ i := by
      rintro rfl
      obtain rfl := Option.some.inj (hs.symm.trans he)
      exact hsteps.status_ne hclosed
    exact (get?_set_ne hj e').trans hs
  | make arena parent _ => exact (get?_push_of_lt (lt_size_of_get? hs) _).trans hs

end Changes

/-! ## Any operations -/

/-- The registry after steps in place, whether or not they failed. -/
def after {α : Type} (r : Registry) (x : InPlace α) : Registry :=
  match x.run r with
  | .ok _ r' => r'
  | .error _ r' => r'

/-- Carry out operations one after the other, each under its settings.  One that fails is no reason
    to stop, nor is one on a scope that there is not, which has no effect. -/
def carryOut (r : Registry) : List (Settings × Operation) → Registry
  | [] => r
  | (settings, op) :: ops =>
    if op.fits r then (r.after (op.inPlace settings)).carryOut ops else r.carryOut ops

section CarryOut

variable {r : Registry}

/-- An operation in place changes a registry as operations do, also where it is refused. -/
theorem changes_after (h : r.Valid) (settings : Settings) {op : Operation}
    (hfits : op.fits r = true) : r.Changes (r.after (op.inPlace settings)) := by
  rw [after, Operation.run_inPlace h.intact]
  rcases Operation.outcome_perform_cases h.intact settings hfits with
    ⟨r', receiver, hx, hchanges⟩ | ⟨s, _, event, hx⟩
  · rw [hx]
    exact hchanges
  · rw [hx]
    exact .nothing

/-- What holds of a registry holds after any operations. -/
private theorem valid_carryOut (h : r.Valid) (ops : List (Settings × Operation)) :
    (r.carryOut ops).Valid := by
  induction ops generalizing r with
  | nil => exact h
  | cons x ops ih =>
    rw [carryOut]
    split
    · next hfits => exact ih ((changes_after h x.1 hfits).valid h)
    · exact ih h

/-- A closed scope is as it was after any operations. -/
private theorem get?_carryOut_of_closed (h : r.Valid) (ops : List (Settings × Operation)) {i : Nat}
    {s : Scope} (hs : r.get? i = some s) (hclosed : s.status = .closed) :
    (r.carryOut ops).get? i = some s := by
  induction ops generalizing r with
  | nil => exact hs
  | cons x ops ih =>
    rw [carryOut]
    split
    · next hfits =>
      have hchanges := changes_after h x.1 hfits
      exact ih (hchanges.valid h) (hchanges.get?_of_closed hs hclosed)
    · exact ih h hs

end CarryOut

/-- After any operations on any scopes, a scope has a name just if it is named or closed and is
    frozen just if it is closed; it has no tag while it is pending, and one at least while it is
    tagged, and until then it is of no construct; and the scopes of an arena are numbered from zero
    as they were made.  The next operation succeeds, or it is not permitted by the status of a scope
    and then leaves all scopes and arenas as they are.  A closed scope never changes again. -/
theorem carryOut_valid (done : List (Settings × Operation)) :
    let r : Registry := carryOut {} done
    (∀ i s, r.get? i = some s → s.Valid) ∧ r.Numbered ∧
      (∀ settings (op : Operation), op.fits r = true →
        (∃ receiver r', (op.inPlace settings).run r = .ok receiver r' ∧
          Registry.outcome (op.perform settings r) = .ok (r', receiver)) ∨
        ∃ s ∈ r.scopes, ∃ event,
          (op.inPlace settings).run r =
            .error (.illegalTransition event (.text s.status.text) {}) r ∧
          op.perform settings r = .error (.illegalTransition event (.text s.status.text) {})) ∧
      ∀ later i s, r.get? i = some s → s.status = .closed →
        (r.carryOut later).get? i = some s := by
  intro r
  have hvalid : r.Valid := valid_carryOut valid_empty done
  refine ⟨hvalid.scopes, hvalid.numbered, fun settings op hfits => ?_, fun later i s hs hclosed =>
    get?_carryOut_of_closed hvalid later hs hclosed⟩
  have hrun := Operation.run_inPlace hvalid.intact settings op
  rcases Operation.outcome_perform_cases hvalid.intact settings hfits with
    ⟨r', receiver, hx, -⟩ | ⟨s, hs, event, hx⟩
  · rw [hx] at hrun
    exact .inl ⟨receiver, r', hrun, hx⟩
  -- In place a refusal leaves the registry, so both sides agree on the fault.
  · rw [hx] at hrun
    refine .inr ⟨s, hs, event, hrun, ?_⟩
    cases hperform : op.perform settings r with
    | error fault =>
      rw [hperform] at hx
      exact congrArg Except.error (Except.error.inj hx)
    | ok reaction =>
      rw [hperform] at hx
      cases hx

end Registry

end ScopeTags
