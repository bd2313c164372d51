import ScopeTags.Proofs.LineReading
import ScopeTags.Proofs.ReadingElsewhere
import ScopeTags.Proofs.TokenOrder

/-!
# Lines before the code

Lines that hold nothing but blanks and comments can come before a source without a change to what
is read from it.  At the end of such a line a reader remembers no more than it does at the start of
a text: only its place has changed, and with it the last character that was read.  That is how a
reader elsewhere differs, so from there on everything comes up at the same column and so many lines
further down.

## Key results

- `Reader.events_leading`: what is read from leading lines and the source after them
- `transcribe_leading`: the transcripts, with and without these lines
-/

namespace ScopeTags

/-- The token `k` lines further down.  One that stands nowhere stays there. -/
def Token.below (k : Nat) (t : Token) : Token :=
  if t.location.line = 0 then t
  else { t with location := { t.location with line := t.location.line + k } }

namespace Source

/-! ## Leading lines -/

/-- A line of blanks and perhaps a comment. -/
structure LeadingLine where
  indent : Indent
  /-- The text after the number sign. -/
  comment : Option (TextOf fun cs => '\n' ∉ cs)

namespace LeadingLine

/-- The line as it is written. -/
def text (l : LeadingLine) : List Char :=
  l.indent.val ++ (l.comment.elim [] ('#' :: ·.val) ++ ['\n'])

/-- The comment on the line of that number, without the carriage returns at its end. -/
def token? (file : Option String) (line : Nat) (l : LeadingLine) : Option Token :=
  l.comment.map fun comment =>
    Token.comment (String.ofList (Text.trimEnd (· = '\r') ('#' :: comment.val)))
      { line, column := l.indent.val.length + 1, file }

/-- The text of some lines. -/
def textOf (lines : List LeadingLine) : List Char := lines.flatMap text

/-- The comments on some lines, the first of which has that number. -/
def tokensOf (file : Option String) (line : Nat) : List LeadingLine → List Token
  | [] => []
  | l :: lines => (l.token? file line).toList ++ tokensOf file (line + 1) lines

/-- The file of a token is part of its location. -/
private theorem inFile_comment (text : String) (location : Location) (file : Option String) :
    (Token.comment text location).inFile file = Token.comment text { location with file } := rfl

/-- The comment on a line, in a file or in none. -/
private theorem inFile_token? (file : Option String) (line : Nat) (l : LeadingLine) :
    (l.token? none line).toList.map (Token.inFile file) = (l.token? file line).toList := by
  obtain ⟨indent, comment⟩ := l
  cases comment with
  | none => rfl
  | some comment => simp only [token?, Option.map_some, Option.toList_some, List.map_cons,
      List.map_nil, inFile_comment]

/-- The comments on all lines are put in a file one by one. -/
private theorem inFile_tokensOf (file : Option String) (line : Nat) (lines : List LeadingLine) :
    (tokensOf none line lines).map (Token.inFile file) = tokensOf file line lines := by
  induction lines generalizing line with
  | nil => rfl
  | cons l lines ih =>
    rw [tokensOf, tokensOf, List.map_append, inFile_token?, ih]

end LeadingLine

namespace Reader

/-- The reader at a place with nothing to remember. -/
def resting (p : Place) (cs : List Char) : Reader := { toPlace := p, rest := cs }

section Resting

variable (p : Place) (cs : List Char)

/-- A blank is passed over. -/
private theorem events_resting_space {c : Char} (hc : isSpace c = true) :
    (resting p (c :: cs)).events = (resting (p.along [c]) cs).events := by
  simp only [isSpace, Bool.or_eq_true, decide_eq_true_eq] at hc
  have hread : (resting p (c :: cs)).read c cs = ([], resting (p.along [c]) cs) := by
    rcases hc with rfl | rfl <;> rfl
  have hstep := step?_eq_read (r := resting p (c :: cs)) rfl
    (.inr (by rcases hc with rfl | rfl <;> decide))
  exact events_of_step? (hstep.trans (congrArg some hread))

/-- Blanks are passed over. -/
private theorem events_resting_indent {indent : List Char} (h : indent.all isSpace = true) :
    (resting p (indent ++ cs)).events = (resting (p.along indent) cs).events := by
  -- By induction on the blanks, each of which moves the place by one column.
  induction indent generalizing p with
  | nil => rfl
  | cons c indent ih =>
    obtain ⟨hc, hindent⟩ : isSpace c = true ∧ indent.all isSpace = true := by simpa using h
    have halong : (p.along [c]).along indent = p.along (c :: indent) := by
      simp [Place.along, Nat.add_comm, Nat.add_left_comm]
    rw [List.cons_append, events_resting_space p _ hc, ih _ hindent, halong]

/-- A comment reaches to the end of its line. -/
private theorem events_resting_comment {text : List Char} (h : '\n' ∉ text) :
    (resting p ('#' :: text ++ '\n' :: cs)).events =
      .token (Token.comment (String.ofList (Text.trimEnd (· = '\r') ('#' :: text))) p.location) ::
        (resting (p.along ('#' :: text)) ('\n' :: cs)).events := by
  have hhop : (resting p ('#' :: text ++ '\n' :: cs)).hop ('#' :: text).length =
      resting (p.along ('#' :: text)) ('\n' :: cs) := by
    rw [hop, Cursor.hop, resting, List.take_left, List.drop_left]
    rfl
  have hread := readComment_eq (r := resting p ('#' :: text ++ '\n' :: cs)) rfl h
  rw [hhop] at hread
  have hstep := step?_eq_read (r := resting p ('#' :: text ++ '\n' :: cs)) rfl
    (.inr (by decide))
  exact events_of_step? (hstep.trans (congrArg some hread))

/-- The end of a line leaves nothing to remember. -/
private theorem events_resting_newline :
    (resting p ('\n' :: cs)).events = (resting (p.past '\n') cs).events := by
  have hread : (resting p ('\n' :: cs)).readNewline = ([], resting (p.past '\n') cs) := by
    rfl
  have hstep := step?_eq_read (r := resting p ('\n' :: cs)) rfl (.inr (by decide))
  exact events_of_step? (hstep.trans (congrArg some hread))

end Resting

/-- The place after some lines. -/
def afterLines (p : Place) (lines : List LeadingLine) : Place :=
  ⟨(LeadingLine.textOf lines).reverse ++ p.before, p.line + lines.length, 0⟩

/-- One line is read as the comment on it, if there is one. -/
private theorem events_leadingLine (l : LeadingLine) {p : Place} (hp : p.column = 0)
    (cs : List Char) : (resting p (l.text ++ cs)).events =
      (l.token? none p.line).toList.map .token ++ (resting (afterLines p [l]) cs).events := by
  obtain ⟨⟨indent, hindent⟩, comment⟩ := l
  cases comment with
  | none =>
    have hplace : (p.along indent).past '\n' =
        afterLines p [{ indent := ⟨indent, hindent⟩, comment := none }] := by
      simp [Place.along, Place.past, afterLines, LeadingLine.textOf, LeadingLine.text]
    show (resting p (indent ++ ([] ++ ['\n']) ++ cs)).events = _
    rw [List.append_assoc, events_resting_indent p _ hindent]
    exact (events_resting_newline _ cs).trans (hplace ▸ rfl)
  | some comment =>
    obtain ⟨text, htext⟩ := comment
    have hplace : ((p.along indent).along ('#' :: text)).past '\n' =
        afterLines p [{ indent := ⟨indent, hindent⟩, comment := some ⟨text, htext⟩ }] := by
      simp [Place.along, Place.past, afterLines, LeadingLine.textOf, LeadingLine.text]
    -- The comment stands behind the blanks, and columns count from one.
    have hlocation : (p.along indent).location =
        { line := p.line, column := indent.length + 1, file := none } := by
      simp [Place.along, Place.location, hp]
    show (resting p (indent ++ ('#' :: text ++ ['\n']) ++ cs)).events = _
    rw [List.append_assoc, List.append_assoc, events_resting_indent p _ hindent]
    show (resting _ ('#' :: text ++ '\n' :: cs)).events = _
    rw [events_resting_comment _ cs (by simpa using htext), events_resting_newline, hplace,
      hlocation]
    rfl

/-- Lines are read one after the other, each from column zero on. -/
private theorem events_leadingLines (lines : List LeadingLine) {p : Place} (hp : p.column = 0)
    (cs : List Char) :
    (resting p (LeadingLine.textOf lines ++ cs)).events =
      (LeadingLine.tokensOf none p.line lines).map .token ++
        (resting (afterLines p lines) cs).events := by
  -- By induction on the lines; after each of them the reader rests at the start of the next.
  induction lines generalizing p with
  | nil =>
    obtain ⟨before, line, column⟩ := p
    obtain rfl : column = 0 := hp
    rfl
  | cons l lines ih =>
    have hplace : afterLines (afterLines p [l]) lines = afterLines p (l :: lines) := by
      simp [afterLines, LeadingLine.textOf, Nat.add_comm, Nat.add_left_comm]
    have htext : LeadingLine.textOf (l :: lines) ++ cs =
        l.text ++ (LeadingLine.textOf lines ++ cs) := by
      simp [LeadingLine.textOf]
    rw [htext, events_leadingLine l hp, ih rfl, hplace, LeadingLine.tokensOf, List.map_append,
      List.append_assoc]
    rfl

/-- After leading lines a reader is at the start of a text, but so many lines further down. -/
private theorem start_moved (lines : List LeadingLine) (cs : List Char) :
    (start cs).toPlace.Moved lines.length 0 (afterLines {} lines) where
  line_eq := rfl
  column_eq_zero_iff := Iff.rfl
  column_eq _ := rfl
  endAlike := by
    refine ⟨[], [], (afterLines {} lines).before, rfl, rfl, rfl, ?_⟩
    -- The last character that was read is a newline, if there was one at all.
    rcases lines.eq_nil_or_concat with rfl | ⟨init, l, rfl⟩
    · rfl
    · simp [afterLines, LeadingLine.textOf, LeadingLine.text, isSpace]

end Reader

/-! ## Events further down -/

/-- The event `k` lines further down. -/
def Event.below (k : Nat) : Event → Event
  | token t => token (t.below k)
  | unterminated what line => unterminated what (line + k)
  | strayEnd line => strayEnd (line + k)
  | unclosedBlocks count => unclosedBlocks count

/-- An event that has moved and keeps its columns is further down.  A token without a line is an
    implied end, since a place has a column from one on. -/
private theorem Event.Moved.eq_below {k : Nat} {e e' : Event} (h : e.Moved k 0 e')
    (hend : ∀ t, e.token? = some t → t.location.line = 0 →
      t = Token.keyword "end" (some .scopeEnd) none {}) : e' = e.below k := by
  cases h with
  | @token t p p' h =>
    -- A place that moves has a column, and an implied end has none.
    have hline : p.line ≠ 0 := by
      intro hzero
      have himplied := hend _ rfl (show (p.line : Int) = 0 by omega)
      have hcolumn := congrArg (·.location.column) himplied
      simp only [Place.location, Token.keyword] at hcolumn
      omega
    simp [below, Token.below, Place.location, h.line_eq, h.column_eq hline, hline]
  | impliedEnd => rfl
  | unterminated what line => rfl
  | strayEnd line => rfl
  | unclosedBlocks count => rfl

/-- Events that have all moved by `k` lines are further down. -/
private theorem eq_map_below {k : Nat} {found found' : List Event}
    (h : List.Forall₂ (Event.Moved k 0) found found')
    (hend : ∀ t ∈ found.filterMap Event.token?, t.location.line = 0 →
      t = Token.keyword "end" (some .scopeEnd) none {}) : found' = found.map (Event.below k) := by
  induction h with
  | nil => rfl
  | @cons e e' found found' he _ ih =>
    have hhere := he.eq_below fun t ht => hend t (List.mem_filterMap.mpr ⟨e, by simp, ht⟩)
    have hlater := ih fun t ht => hend t (by
      obtain ⟨e, he, ht⟩ := List.mem_filterMap.mp ht
      exact List.mem_filterMap.mpr ⟨e, List.mem_cons_of_mem _ he, ht⟩)
    rw [List.map_cons, hhere, hlater]

/-- What is read from leading lines and the source after them. -/
theorem Reader.events_leading (lines : List LeadingLine) (cs : List Char) :
    (start (LeadingLine.textOf lines ++ cs)).events =
      (LeadingLine.tokensOf none 1 lines).map .token ++
        (start cs).events.map (Event.below lines.length) := by
  have hmoved : List.Forall₂ (Event.Moved lines.length 0) (start cs).events
      (resting (afterLines {} lines) cs).events := events_moved (start_moved lines cs)
  have hbelow := eq_map_below hmoved fun t ht =>
    (start cs).events_eq_end_of_line_eq_zero Nat.one_pos ht
  rw [← hbelow]
  exact events_leadingLines lines (p := {}) rfl cs

/-! ## Transcripts -/

section Transcripts

variable (strict : Bool) (file : Option String) (k : Nat)

/-- An event can be moved down before or after its file is named. -/
private theorem Event.inFile_below (e : Event) :
    (e.below k).inFile file = (e.inFile file).below k := by
  cases e with
  | token t =>
    simp only [below, inFile, Token.below, Token.inFile]
    split <;> rfl
  | unterminated what line => rfl
  | strayEnd line => rfl
  | unclosedBlocks count => rfl

/-- The token of an event moves down with it. -/
private theorem Event.token?_below (e : Event) :
    (e.below k).token? = e.token?.map (Token.below k) := by
  cases e <;> rfl

/-- An event that is a fault is one further down as well. -/
private theorem Event.isNone_fault?_below (e : Event) :
    ((e.below k).fault? strict file).isNone = (e.fault? strict file).isNone := by
  cases e <;> cases strict <;> rfl

/-- The first fault is the same, further down. -/
private theorem findSome?_fault?_below (found : List Event) :
    (found.findSome? (Event.fault? strict file) = none ∧
      (found.map (Event.below k)).findSome? (Event.fault? strict file) = none) ∨
    ∃ (reason : String) (line : Int),
      found.findSome? (Event.fault? strict file) =
        some (.lexical reason { line := some line, file }) ∧
      (found.map (Event.below k)).findSome? (Event.fault? strict file) =
        some (.lexical reason { line := some (line + k), file }) := by
  induction found with
  | nil => exact .inl ⟨rfl, rfl⟩
  | cons e found ih =>
    cases e with
    -- Of all events only this one can be a fault, and it has a line.
    | unterminated what line =>
      cases strict with
      | false => exact ih
      | true => exact .inr ⟨_, line, rfl, rfl⟩
    | token t => exact ih
    | strayEnd line => exact ih
    | unclosedBlocks count => exact ih

/-- The tokens, further down. -/
private theorem filterMap_token?_below (found : List Event) :
    (found.map (Event.below k)).filterMap Event.token? =
      (found.filterMap Event.token?).map (Token.below k) := by
  rw [List.filterMap_map, List.map_filterMap]
  congr 1
  funext e
  exact e.token?_below k

/-- What comes before the first fault, further down. -/
private theorem takeWhile_below (found : List Event) :
    (found.map (Event.below k)).takeWhile (fun e => (e.fault? strict file).isNone) =
      (found.takeWhile fun e => (e.fault? strict file).isNone).map (Event.below k) := by
  rw [List.takeWhile_map]
  congr 2
  funext e
  exact e.isNone_fault?_below strict file k

/-- What is read from leading lines and the source after them, in a file. -/
private theorem eventsIn_leading (lines : List LeadingLine) (source : String) :
    eventsIn file (String.ofList (LeadingLine.textOf lines) ++ source) =
      (LeadingLine.tokensOf file 1 lines).map .token ++
        (eventsIn file source).map (Event.below lines.length) := by
  rw [eventsIn, events, String.toList_append, String.toList_ofList, Reader.events_leading,
    List.map_append, List.map_map, List.map_map, eventsIn, List.map_map,
    ← LeadingLine.inFile_tokensOf file, List.map_map]
  congr 2
  funext e
  exact e.inFile_below file lines.length

end Transcripts

/-- A source reads the same below lines of blanks and comments.  The tokens are the comments on
    these lines and then those of the source, as many lines further down as there are such lines;
    and a fault is the same one, so many lines further down. -/
theorem transcribe_leading (lines : List LeadingLine) (strict : Bool) (file : Option String)
    (source : String) :
    let here : Transcript := transcribe strict file source
    let below : Transcript :=
      transcribe strict file (String.ofList (LeadingLine.textOf lines) ++ source)
    below.tokens =
      LeadingLine.tokensOf file 1 lines ++ here.tokens.map (Token.below lines.length) ∧
    ((here.fault = none ∧ below.fault = none) ∨ ∃ (reason : String) (line : Int),
      here.fault = some (.lexical reason { line := some line, file }) ∧
      below.fault = some (.lexical reason { line := some (line + lines.length), file })) := by
  intro here below
  -- A comment is no fault, so the first fault is one of the source.
  have htokens : ∀ e ∈ (LeadingLine.tokensOf file 1 lines).map Event.token,
      e.fault? strict file = none := by
    intro e he
    obtain ⟨t, -, rfl⟩ := List.mem_map.mp he
    rfl
  constructor
  · show List.filterMap _ (List.takeWhile _ (eventsIn _ _)) = _
    rw [eventsIn_leading, List.takeWhile_append_of_pos fun e he => by rw [htokens e he]; rfl,
      takeWhile_below, List.filterMap_append, filterMap_token?_below, List.filterMap_map]
    congr 1
    exact List.filterMap_some
  · have hfault : below.fault =
        ((eventsIn file source).map (Event.below lines.length)).findSome?
          (Event.fault? strict file) := by
      show List.findSome? _ (eventsIn _ _) = _
      rw [eventsIn_leading, List.findSome?_append, List.findSome?_eq_none_iff.mpr htokens]
      rfl
    rw [hfault]
    exact findSome?_fault?_below strict file lines.length (eventsIn file source)

end Source

end ScopeTags
