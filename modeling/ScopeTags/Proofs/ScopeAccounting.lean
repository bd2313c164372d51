import ScopeTags.Proofs.ReadingUpTo
import ScopeTags.Proofs.StrictReading

/-!
# Accounts of scopes

Every scope that is opened is closed by a token, or it is still open.  The tokens that were brought
up and the stacks of the reader keep these accounts together: between any two steps, the scopes that
were opened are those that were closed, without the ends that close nothing, and those that are
open.

## Key results

- `Reader.Effect.balanced`: one step keeps the accounts
- `Reader.advance_balanced`: so do any number of steps
- `transcribe_accounts`: the accounts of a source at every point of its reading and where it ends
-/

namespace ScopeTags.Source

/-! ## Tokens -/

/-- How many of the tokens open a scope. -/
def opened (tokens : List Token) : Nat := tokens.countP (·.keywordClass = some .newScope)

/-- How many of the tokens close a scope. -/
def ended (tokens : List Token) : Nat := tokens.countP (·.keywordClass = some .scopeEnd)

/-- How many of the tokens close a scope and stand nowhere in the text. -/
def implied (tokens : List Token) : Nat :=
  tokens.countP fun t => t.keywordClass = some .scopeEnd ∧ t.location.line = 0

/-- Whether an event is an `end` that stands in the text and closes a scope. -/
def Event.isEnd : Event → Bool
  | token t => t.text = "end" ∧ t.keywordClass = some .scopeEnd ∧ t.location.line ≠ 0
  | _ => false

namespace Bracket

/-- Whether it opens a scope. -/
def isOpening : Bracket → Bool
  | opens _ => true
  | closes _ => false

/-- Whether it closes one. -/
def isClosing : Bracket → Bool
  | opens _ => false
  | closes _ => true

/-- Whether it closes one and stands nowhere in the text. -/
def isImplied : Bracket → Bool
  | opens _ => false
  | closes implied => implied

end Bracket

section Counting

variable (b : Bool) (found : List Event)

/-- A property of tokens that is one of their brackets counts these. -/
private theorem countP_token? {p : Token → Bool} {q : Bracket → Bool}
    (h : ∀ t, p t = ((Event.token t).bracket? b).any q) :
    (found.filterMap Event.token?).countP p = (bracketsOf b found).countP q := by
  rw [bracketsOf, List.countP_filterMap, List.countP_filterMap]
  congr 1
  funext event
  cases event with
  | token t =>
    rw [show (Event.token t).token? = some t from rfl, Option.map_some, Option.getD_some, h]
    cases (Event.token t).bracket? b <;> rfl
  | unterminated what line => rfl
  | strayEnd line => rfl
  | unclosedBlocks count => rfl

/-- The tokens that open a scope, as brackets. -/
private theorem opened_eq :
    opened (found.filterMap Event.token?) = (bracketsOf b found).countP Bracket.isOpening := by
  apply countP_token?
  intro t
  simp only [Event.bracket?]
  split <;> simp_all [Bracket.isOpening]

/-- The tokens that close a scope, as brackets. -/
private theorem ended_eq :
    ended (found.filterMap Event.token?) = (bracketsOf b found).countP Bracket.isClosing := by
  apply countP_token?
  intro t
  simp only [Event.bracket?]
  split <;> simp_all [Bracket.isClosing]

/-- The tokens that are implied ends, as brackets. -/
private theorem implied_eq :
    implied (found.filterMap Event.token?) = (bracketsOf b found).countP Bracket.isImplied := by
  apply countP_token?
  intro t
  simp only [Event.bracket?]
  split <;> simp_all [Bracket.isImplied]

/-- Where a bracket is not among those of the events, neither is a token that stands for it. -/
private theorem any_eq_false_of_not_mem {p : Event → Bool} {bracket : Bracket}
    (hp : ∀ event, p event = true → event.bracket? b = some bracket)
    (h : bracket ∉ bracketsOf b found) : found.any p = false := by
  apply List.any_eq_false.mpr
  intro event hmem hevent
  exact h (List.mem_filterMap.mpr ⟨event, hmem, hp event hevent⟩)

/-- No bracket that closes, no `end` in the text. -/
private theorem any_isEnd_eq_false (h : .closes false ∉ bracketsOf b found) :
    found.any Event.isEnd = false := by
  refine any_eq_false_of_not_mem b found (fun event hend => ?_) h
  cases event with
  | token t =>
    simp only [Event.isEnd, decide_eq_true_eq] at hend
    simp [Event.bracket?, hend]
  | _ => cases hend

/-- No bracket of a definition, no definition. -/
private theorem any_isDefinition_eq_false (h : .opens b ∉ bracketsOf b found) :
    found.any Event.isDefinition = false := by
  refine any_eq_false_of_not_mem b found (fun event hdefinition => ?_) h
  cases event with
  | token t =>
    simp only [Event.isDefinition, decide_eq_true_eq] at hdefinition
    simp [Event.bracket?, hdefinition]
  | _ => cases hdefinition

end Counting

namespace Reader

/-! ## One step -/

/-- Whether a reading that brings up `found` comes upon an `end` while no block is open. -/
def comesUponStray (r : Reader) (found : List Event) : Bool :=
  r.blocks.isEmpty && found.any Event.isEnd

/-- The accounts of a reading by `r`, of which `strays` ends close nothing, and in which
    `definitions` endless definitions begin. -/
structure Balanced (r : Reader) (strays definitions : Nat) (reading : Reading) : Prop where
  scopes : opened (reading.1.filterMap Event.token?) + strays + r.constructs + r.endless.length =
    ended (reading.1.filterMap Event.token?) + reading.2.constructs + reading.2.endless.length
  endless : implied (reading.1.filterMap Event.token?) + reading.2.endless.length =
    definitions + r.endless.length

/-- The accounts in terms of brackets. -/
private theorem Balanced.of_brackets {r next : Reader} {found : List Event}
    {strays definitions : Nat} {brackets : List Bracket} (hfound : bracketsOf true found = brackets)
    (hscopes : brackets.countP Bracket.isOpening + strays + r.constructs + r.endless.length =
      brackets.countP Bracket.isClosing + next.constructs + next.endless.length)
    (hendless : brackets.countP Bracket.isImplied + next.endless.length =
      definitions + r.endless.length) :
    r.Balanced strays definitions (found, next) := by
  subst hfound
  rw [← opened_eq, ← ended_eq] at hscopes
  rw [← implied_eq] at hendless
  exact ⟨hscopes, hendless⟩

/-- What a step brings up is in balance with what it opens and closes. -/
theorem Effect.balanced {r next : Reader} {found : List Event} (hline : 0 < r.line)
    (h : r.Effect (found, next)) :
    r.Balanced (r.comesUponStray found).toNat (r.beginsEndless found).toNat (found, next) := by
  -- Most steps bring up no end that stands in the text, or no keyword of a definition.
  have hstray : .closes false ∉ bracketsOf true found → r.comesUponStray found = false := by
    intro hnot
    rw [comesUponStray, any_isEnd_eq_false true found hnot, Bool.and_false]
  have hplain : .opens true ∉ bracketsOf true found → r.beginsEndless found = false := by
    intro hnot
    rw [beginsEndless, any_isDefinition_eq_false true found hnot, Bool.false_and]
  -- One case for each effect of a step; what it adds on the one side it adds on the other.
  cases h with
  | opensConstruct hconstructs hendless hbrackets hbegins =>
    rw [hstray (by simp [hbrackets]), hbegins]
    apply Balanced.of_brackets (hbrackets true)
    · show 1 + 0 + r.constructs + r.endless.length = 0 + next.constructs + next.endless.length
      rw [hendless]
      omega
    · show 0 + next.endless.length = 0 + r.endless.length
      rw [hendless]
  | opensEndless depth hconstructs hendless hbrackets hbegins =>
    rw [hstray (by simp [hbrackets]), hbegins]
    have hlength : next.endless.length = r.endless.length + 1 := by simp [hendless]
    apply Balanced.of_brackets (hbrackets true)
    · show 1 + 0 + r.constructs + r.endless.length = 0 + next.constructs + next.endless.length
      omega
    · show 0 + next.endless.length = 1 + r.endless.length
      omega
  | closesConstruct hconstructs hendless hbrackets =>
    -- A block is open, so the end is no stray one.
    have hblocks : r.blocks ≠ [] := by
      intro hnil
      simp [constructs, hnil] at hconstructs
    have hnone : r.comesUponStray found = false := by simp [comesUponStray, hblocks]
    rw [hnone, hplain (by simp [hbrackets])]
    apply Balanced.of_brackets (hbrackets true)
    · show 0 + 0 + r.constructs + r.endless.length = 1 + next.constructs + next.endless.length
      rw [hendless]
      omega
    · show 0 + next.endless.length = 0 + r.endless.length
      rw [hendless]
  | strays line hmem hblocks hconstructs hendless hbrackets hend =>
    have hisEnd : (r.keywordHere "end" .scopeEnd none).isEnd = true := by
      simp [keywordHere, Event.isEnd, Token.keyword, Place.location, Nat.ne_of_gt hline]
    have hone : r.comesUponStray found = true := by
      simp only [comesUponStray, hblocks, List.isEmpty_nil, Bool.true_and]
      exact List.any_eq_true.mpr ⟨_, hend, hisEnd⟩
    rw [hone, hplain (by simp [hbrackets])]
    apply Balanced.of_brackets (hbrackets true)
    · show 0 + 1 + r.constructs + r.endless.length = 1 + next.constructs + next.endless.length
      rw [hendless]
      omega
    · show 0 + next.endless.length = 0 + r.endless.length
      rw [hendless]
  | settles closed hconstructs hendless hbrackets =>
    rw [hstray (by simp [hbrackets]), hplain (by simp [hbrackets])]
    have hlength : r.endless.length = closed.length + next.endless.length := by simp [hendless]
    have hcount : ∀ p : Bracket → Bool, (closed.map fun _ => Bracket.closes true).countP p =
        if p (.closes true) then closed.length else 0 := by
      intro p
      rw [List.map_const', List.countP_replicate]
    apply Balanced.of_brackets (hbrackets true)
    · rw [hcount, hcount]
      show 0 + 0 + r.constructs + r.endless.length =
        closed.length + next.constructs + next.endless.length
      omega
    · rw [hcount]
      show closed.length + next.endless.length = 0 + r.endless.length
      omega

/-! ## Many steps -/

/-- How many of the first `n` steps are such that `p` holds of the reader before the step and of
    what the step brings up. -/
def countSteps (p : Reader → List Event → Bool) : Nat → Reader → Nat
  | 0, _ => 0
  | n + 1, r =>
    match r.step? with
    | none => 0
    | some (found, next) => (p r found).toNat + countSteps p n next

/-- The accounts of two readings, one after the other. -/
theorem Balanced.append {r next last : Reader} {found more : List Event} {s s' d d' : Nat}
    (h : r.Balanced s d (found, next)) (h' : next.Balanced s' d' (more, last)) :
    r.Balanced (s + s') (d + d') (found ++ more, last) := by
  obtain ⟨hscopes, hendless⟩ := h
  obtain ⟨hscopes', hendless'⟩ := h'
  constructor
  · simp only [List.filterMap_append, opened, ended, List.countP_append] at hscopes hscopes' ⊢
    omega
  · simp only [List.filterMap_append, implied, List.countP_append] at hendless hendless' ⊢
    omega

/-- Where nothing is read, the accounts stay. -/
private theorem balanced_nil (r : Reader) : r.Balanced 0 0 ([], r) := by
  constructor <;> simp [opened, ended, implied]

/-- The accounts are in balance between any two steps. -/
theorem advance_balanced {r : Reader} (hline : 0 < r.line) (n : Nat) :
    r.Balanced (r.countSteps comesUponStray n) (r.countSteps beginsEndless n) (r.advance n) := by
  -- By induction on the number of steps.
  induction n generalizing r with
  | zero => exact r.balanced_nil
  | succ n ih =>
    simp only [advance, countSteps]
    cases hstep : r.step? with
    | none => exact r.balanced_nil
    | some reading =>
      obtain ⟨found, next⟩ := reading
      obtain ⟨hle, heffect⟩ := step?_moves hline hstep
      have hnext : 0 < next.line := Nat.lt_of_lt_of_le hline hle
      exact (heffect.balanced hline).append (ih hnext)

/-- There is nothing more to read after as many steps as the text has characters. -/
private theorem step?_advance {r : Reader} {n : Nat} (h : r.rest.length ≤ n) :
    (r.advance n).2.step? = none := by
  induction n generalizing r with
  | zero =>
    have hnil : r.rest = [] := List.length_eq_zero_iff.mp (Nat.le_zero.mp h)
    simp [advance, step?, hnil]
  | succ n ih =>
    simp only [advance]
    cases hstep : r.step? with
    | none => exact hstep
    | some reading =>
      have hlt := step?_shorter hstep
      exact ih (by omega)

/-- Where the text ends, the endless definitions that are open are closed. -/
private theorem finish_balanced (r : Reader) :
    r.Balanced 0 0 (r.finish, { r with endless := [] }) := by
  have hends : r.finish.filterMap Event.token? = _ := r.finish_endsOnly
  -- Every definition that is open counts once as closed and once as implied.
  constructor
  · simp only [hends, opened, ended, List.countP_replicate]
    show 0 + 0 + r.constructs + r.endless.length = r.endless.length + r.constructs + 0
    omega
  · simp only [hends, implied, List.countP_replicate]
    show r.endless.length + 0 = 0 + r.endless.length
    omega

/-- Where nothing more is to be read after `n` steps, no endless definition is left open. -/
private theorem events_balanced {r : Reader} (hline : 0 < r.line) {n : Nat}
    (h : (r.advance n).2.step? = none) :
    r.Balanced (r.countSteps comesUponStray n) (r.countSteps beginsEndless n)
      (r.events, { (r.advance n).2 with endless := [] }) := by
  rw [events_advance n r, events_of_none h]
  exact (advance_balanced hline n).append (finish_balanced _)

end Reader

/-! ## Transcripts -/

section Transcripts

variable (file : Option String)

/-- Accounts do not depend on the file. -/
private theorem opened_inFile (tokens : List Token) :
    opened (tokens.map (Token.inFile file)) = opened tokens := by
  rw [opened, List.countP_map]
  rfl

/-- The ends among tokens do not depend on the file. -/
private theorem ended_inFile (tokens : List Token) :
    ended (tokens.map (Token.inFile file)) = ended tokens := by
  rw [ended, List.countP_map]
  rfl

/-- The implied ends among tokens do not depend on the file. -/
private theorem implied_inFile (tokens : List Token) :
    implied (tokens.map (Token.inFile file)) = implied tokens := by
  rw [implied, List.countP_map]
  rfl

/-- An event is the same fault whether or not it has its file yet. -/
theorem Event.fault?_inFile (strict : Bool) (event : Event) :
    (event.inFile file).fault? strict file = event.fault? strict file := by
  cases event <;> rfl

/-- What comes before the first fault is in the transcript. -/
private theorem tokens_isPrefix_transcribe {strict : Bool} {source : String}
    {found more : List Event} (hevents : events source = found ++ more)
    (h : ∀ event ∈ found, event.fault? strict file = none) :
    (found.filterMap Event.token?).map (Token.inFile file) <+:
      (transcribe strict file source).tokens := by
  have hnone : ∀ event ∈ found.map (Event.inFile file), event.fault? strict file = none := by
    intro event hmem
    obtain ⟨bare, hbare, rfl⟩ := List.mem_map.mp hmem
    rw [Event.fault?_inFile, h bare hbare]
  simp only [transcribe, eventsIn, hevents, List.map_append]
  rw [List.takeWhile_append_of_pos fun event hmem => by rw [hnone event hmem]; rfl,
    List.filterMap_append, Event.filterMap_token?_inFile]
  exact List.prefix_append _ _

/-- Without a fault, all of it is. -/
private theorem tokens_transcribe_of_fault_eq_none {strict : Bool} {source : String}
    (h : (transcribe strict file source).fault = none) :
    (transcribe strict file source).tokens =
      ((events source).filterMap Event.token?).map (Token.inFile file) := by
  have hnone := List.findSome?_eq_none_iff.mp h
  rw [Event.filterMap_token?_inFile]
  exact congrArg (List.filterMap Event.token?) (heeded_eq file hnone)

end Transcripts

/-- The accounts of a source.  After any number of steps, the scopes that were opened are those that
    were closed, less the ends that were met while no block was open, and the constructs and endless
    definitions that are open; and what the steps brought up is in the transcript, unless there is a
    fault among it.  Once there is nothing more to read, which is so after as many steps as the
    source has characters, a transcript without a fault has one implied end for each definition that
    was found to be endless, and the scopes that were opened are those that were closed, less the
    same ends, and the constructs that are still open. -/
theorem transcribe_accounts (strict : Bool) (file : Option String) (source : String) :
    let start : Reader := Reader.start source.toList
    let transcript : Transcript := transcribe strict file source
    (∀ n found reader, start.advance n = (found, reader) →
      let tokens := found.filterMap Event.token?
      let strays := start.countSteps Reader.comesUponStray n
      let definitions := start.countSteps Reader.beginsEndless n
      (opened tokens : Int) =
          ended tokens - strays + reader.constructs + reader.endless.length ∧
        ((∀ event ∈ found, event.fault? strict file = none) →
          tokens.map (Token.inFile file) <+: transcript.tokens) ∧
        (reader.step? = none → transcript.fault = none →
          implied transcript.tokens = definitions ∧
          (opened transcript.tokens : Int) =
            (ended transcript.tokens - strays) + reader.constructs)) ∧
      (start.advance source.length).2.step? = none ∧
      (strict = false → transcript.fault = none) := by
  intro start transcript
  have hline : 0 < start.line := Nat.one_pos
  have hconstructs : start.constructs = 0 := rfl
  have hopen : start.endless.length = 0 := rfl
  refine ⟨?_, Reader.step?_advance (Nat.le_of_eq String.length_toList), ?_⟩
  · -- At the start nothing is open, so the balance is all that there is.
    intro n found reader hn tokens strays definitions
    have hbalanced := Reader.advance_balanced hline n
    rw [hn] at hbalanced
    have hevents : events source = found ++ reader.events := by
      have hsplit := start.events_advance n
      rwa [hn] at hsplit
    refine ⟨?_, tokens_isPrefix_transcribe file hevents, fun hend hfault => ?_⟩
    · have hscopes : opened tokens + strays + start.constructs + start.endless.length =
          ended tokens + reader.constructs + reader.endless.length := hbalanced.scopes
      omega
    · have hwhole := Reader.events_balanced hline (n := n) (by rw [hn]; exact hend)
      rw [hn] at hwhole
      rw [tokens_transcribe_of_fault_eq_none file hfault, opened_inFile, ended_inFile,
        implied_inFile]
      -- Nothing is left open that has no `end` of its own.
      have hscopes : opened ((events source).filterMap Event.token?) + strays + start.constructs +
          start.endless.length = ended ((events source).filterMap Event.token?) +
            reader.constructs + 0 := hwhole.scopes
      have hendless : implied ((events source).filterMap Event.token?) + 0 =
          definitions + start.endless.length := hwhole.endless
      omega
  · intro hlenient
    subst hlenient
    exact congrArg Transcript.fault (transcribe_lenient file source)

/-- One end closes nothing, one is implied, and a class is still open. -/
theorem transcribe_accounts_stray_end :
    let source := "end\ndef f = g\nclass C\n"
    let transcript : Transcript := transcribe true none source
    transcript.fault = none ∧ ended transcript.tokens = 2 ∧ implied transcript.tokens = 1 ∧
      (opened transcript.tokens : Int) = (2 - 1) + 1 := by
  intro source transcript
  have hsource : transcript.fault = none ∧ ended transcript.tokens = 2 ∧
      (Reader.start source.toList).countSteps Reader.comesUponStray source.length = 1 ∧
      (Reader.start source.toList).countSteps Reader.beginsEndless source.length = 1 ∧
      ((Reader.start source.toList).advance source.length).2.constructs = 1 := by
    decide +kernel
  obtain ⟨hfault, hended, hstrays, hdefinitions, hconstructs⟩ := hsource
  obtain ⟨hsteps, hend, -⟩ := transcribe_accounts true none source
  obtain ⟨-, -, hdone⟩ := hsteps source.length _ _ rfl
  obtain ⟨himplied, hopened⟩ := hdone hend hfault
  rw [hdefinitions] at himplied
  rw [hended, hstrays, hconstructs] at hopened
  exact ⟨hfault, hended, himplied, hopened⟩

end ScopeTags.Source
