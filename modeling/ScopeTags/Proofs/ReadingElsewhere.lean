import Mathlib.Data.List.Forall2
import ScopeTags.Proofs.ReadingEffect

/-!
# Reading the same text elsewhere

What a reader does depends on the text ahead of it and on what it remembers, but hardly on where in
the source it is.  Two readers of the same text, one of them `k` lines further down and on line `L`
at other columns, bring up the same events, at places that differ in just that way.

Of the place itself a reader only asks whether it is at the start of a line, and of the text that
was read only the last one or two characters, for a space or for colons.

## Key results

- `Place.Moved`, `Event.Moved`: how places and events differ
- `Reader.step?_moved`: one step
- `Reader.events_moved`: everything up to the end of the text
-/

namespace ScopeTags.Source

/-! ## Places -/

/-- The two texts, last character first, end alike as far as a reader looks back. -/
def EndAlike (before before' : List Char) : Prop :=
  ∃ shared old old', before = shared ++ old ∧ before' = shared ++ old' ∧
    old.head?.all (fun c => !isSpace c && c ≠ ':') = true ∧
    old'.head?.all (fun c => !isSpace c && c ≠ ':') = true

namespace EndAlike

variable {before before' : List Char}

/-- Texts that end alike do so after the same characters were read of both. -/
theorem append (h : EndAlike before before') (cs : List Char) :
    EndAlike (cs ++ before) (cs ++ before') := by
  obtain ⟨shared, old, old', rfl, rfl, hold, hold'⟩ := h
  exact ⟨cs ++ shared, old, old', by simp, by simp, hold, hold'⟩

/-- Of two texts that end alike both end with a space or neither does. -/
private theorem any_isSpace (h : EndAlike before before') :
    before'.head?.any isSpace = before.head?.any isSpace := by
  obtain ⟨shared, old, old', rfl, rfl, hold, hold'⟩ := h
  cases shared with
  | nil => cases old <;> cases old' <;> simp_all
  | cons c shared => rfl

/-- Both end with two colons or neither does. -/
private theorem isPrefixOf_colons (h : EndAlike before before') :
    [':', ':'].isPrefixOf before' = [':', ':'].isPrefixOf before := by
  obtain ⟨shared, old, old', rfl, rfl, hold, hold'⟩ := h
  -- A colon that was read before the two texts part is no part of what they do not share.
  have hne : ∀ l : List Char, l.head?.all (fun c => !isSpace c && c ≠ ':') = true →
      [':'].isPrefixOf l = false ∧ [':', ':'].isPrefixOf l = false := by
    intro l hl
    cases l with
    | nil => exact ⟨rfl, rfl⟩
    | cons c l =>
      have hc : ':' ≠ c := by
        rintro rfl
        simp at hl
      simp [List.isPrefixOf, hc]
  -- The colons are both shared, or one of them is, or none.
  cases shared with
  | nil => exact (hne old' hold').2.trans (hne old hold).2.symm
  | cons c shared =>
    cases shared with
    | nil =>
      simp only [List.cons_append, List.nil_append, List.isPrefixOf, (hne old hold).1,
        (hne old' hold').1]
    | cons d shared => simp [List.isPrefixOf]

end EndAlike

namespace Place

/-- The place `p'` is `k` lines below `p` and on line `L` perhaps at another column, but at the
    start of a line only if `p` is. -/
structure Moved (k L : Nat) (p p' : Place) : Prop where
  line_eq : p'.line = p.line + k
  column_eq_zero_iff : p'.column = 0 ↔ p.column = 0
  column_eq : p.line ≠ L → p'.column = p.column
  endAlike : EndAlike p.before p'.before

namespace Moved

variable {k L : Nat} {p p' : Place}

/-- One more character, which both places have gone past. -/
theorem past (h : p.Moved k L p') (c : Char) : (p.past c).Moved k L (p'.past c) := by
  have hbefore := h.endAlike.append [c]
  rw [Place.past, Place.past]
  split
  -- After a newline both columns are zero again, on whatever line the places parted.
  · exact ⟨by rw [h.line_eq]; exact Nat.add_right_comm p.line k 1, Iff.rfl, fun _ => rfl, hbefore⟩
  · refine ⟨h.line_eq, by simp, fun hL => congrArg (· + 1) (h.column_eq hL), hbefore⟩

/-- More characters of the same line, which both places have gone past. -/
theorem along (h : p.Moved k L p') (cs : List Char) : (p.along cs).Moved k L (p'.along cs) where
  line_eq := h.line_eq
  column_eq_zero_iff := by
    change p'.column + cs.length = 0 ↔ p.column + cs.length = 0
    have := h.column_eq_zero_iff
    omega
  column_eq hL := congrArg (· + cs.length) (h.column_eq hL)
  endAlike := h.endAlike.append cs.reverse

end Moved

end Place

/-- The event `e'` is `e` at a place that has moved.  An implied end stands nowhere. -/
inductive Event.Moved (k L : Nat) : Event → Event → Prop where
  | token (t : Token) {p p' : Place} (h : p.Moved k L p') :
      Moved k L (.token { t with location := p.location })
        (.token { t with location := p'.location })
  | impliedEnd : Moved k L Reader.impliedEnd Reader.impliedEnd
  | unterminated (what : Unterminated) (line : Nat) :
      Moved k L (.unterminated what line) (.unterminated what (line + k))
  | strayEnd (line : Nat) : Moved k L (.strayEnd line) (.strayEnd (line + k))
  | unclosedBlocks (count : Nat) : Moved k L (.unclosedBlocks count) (.unclosedBlocks count)

/-! ## Literals, lines and documents -/

/-- The same frame, `k` lines further down. -/
def Frame.below (k : Nat) : Frame → Frame
  | single => single
  | body close opener interpolates nesting line => body close opener interpolates nesting (line + k)
  | interpolation depth line => interpolation depth (line + k)
  | regex inClass line => regex inClass (line + k)

/-- A frame reads the same characters further down, and what takes its place is further down too. -/
private theorem Frame.read_below (k line : Nat) (c : Char) (next : Option Char) (frame : Frame) :
    (frame.below k).read (line + k) c next = (frame.read line c next).map (below k) := by
  cases frame with
  | single => rfl
  | body close opener interpolates nesting start =>
    simp only [below, read]
    -- Only a frame that opens on this line takes its line from the reader, and both moved by `k`.
    cases nesting <;> grind [below]
  | interpolation depth start =>
    simp only [below, read, string]
    cases depth <;> grind [below]
  | regex inClass start =>
    simp only [below, read]
    grind [below]

/-- Each frame that is still open is reported as many lines further down. -/
private theorem Frame.report?_below (k L : Nat) (frames : List Frame) :
    List.Forall₂ (Event.Moved k L) (frames.filterMap report?)
      ((frames.map (below k)).filterMap report?) := by
  induction frames with
  | nil => exact .nil
  | cons frame frames ih =>
    cases frame with
    | single => exact ih
    | body close opener interpolates nesting line => exact .cons (.unterminated _ _) ih
    | interpolation depth line => exact .cons (.unterminated _ _) ih
    | regex inClass line => exact .cons (.unterminated _ _) ih

section Cursors

variable {k L : Nat}

/-- The cursor with its place elsewhere. -/
def Cursor.elsewhere (c : Cursor) (p : Place) : Cursor := { toPlace := p, rest := c.rest }

/-- A cursor with what was brought up, moved. -/
def CursorMoved (k L : Nat) (a a' : Cursor × List Event) : Prop :=
  List.Forall₂ (Event.Moved k L) a.2 a'.2 ∧
    ∃ p, a.1.toPlace.Moved k L p ∧ a'.1 = a.1.elsewhere p

/-- Literals end at the same character, whatever the place. -/
private theorem skipFrames_moved (frames : List Frame) {p p' : Place} (h : p.Moved k L p')
    (cs : List Char) :
    CursorMoved k L (skipFrames frames p cs) (skipFrames (frames.map (Frame.below k)) p' cs) := by
  induction cs generalizing frames p p' with
  | nil =>
    cases frames with
    | nil => exact ⟨.nil, p', h, rfl⟩
    | cons frame frames => exact ⟨Frame.report?_below k L (frame :: frames), p', h, rfl⟩
  | cons c cs ih =>
    cases frames with
    | nil => exact ⟨.nil, p', h, rfl⟩
    | cons frame frames =>
      -- The frames after the character are those of the other reading, further down.
      have ih := ih (frame.read p.line c cs.head? ++ frames) (h.past c)
      rw [List.map_append, ← Frame.read_below, ← h.line_eq] at ih
      exact ih

/-- The next line starts at the same character. -/
private theorem Cursor.nextLine_moved (c : Cursor) {p : Place} (h : c.toPlace.Moved k L p) :
    ∃ p', c.nextLine.toPlace.Moved k L p' ∧ (c.elsewhere p).nextLine = c.nextLine.elsewhere p' := by
  have halong := h.along (c.rest.takeWhile (· ≠ '\n'))
  simp only [nextLine, elsewhere]
  cases c.rest.dropWhile (· ≠ '\n') with
  | nil => exact ⟨_, halong, rfl⟩
  | cons d rest => exact ⟨_, halong.past d, rfl⟩

/-- Of lines only the text is asked, so the same one is found. -/
private theorem Cursor.linesThrough_moved (ends : List Char → Bool) (c : Cursor) {p : Place}
    (h : c.toPlace.Moved k L p) :
    ((c.elsewhere p).linesThrough ends).1 = (c.linesThrough ends).1 ∧
      ∃ p', (c.linesThrough ends).2.toPlace.Moved k L p' ∧
        ((c.elsewhere p).linesThrough ends).2 = (c.linesThrough ends).2.elsewhere p' := by
  fun_induction linesThrough ends c generalizing p with
  | case1 c hrest =>
    rw [linesThrough, dif_pos (show (c.elsewhere p).rest = [] from hrest)]
    exact ⟨rfl, p, h, rfl⟩
  | case2 c hrest hends =>
    obtain ⟨p', hp', hnext⟩ := c.nextLine_moved h
    rw [linesThrough, dif_neg (show ¬(c.elsewhere p).rest = [] from hrest),
      if_pos (show ends (c.elsewhere p).currentLine = true from hends)]
    exact ⟨rfl, p', hp', hnext⟩
  | case3 c hrest hends ih =>
    obtain ⟨p', hp', hnext⟩ := c.nextLine_moved h
    rw [linesThrough, dif_neg (show ¬(c.elsewhere p).rest = [] from hrest),
      if_neg (show ¬ends (c.elsewhere p).currentLine = true from hends), hnext]
    exact ih hp'

/-- The bodies of heredocs are the same lines. -/
private theorem skipBodies_moved (heredocs : List Heredoc) (c : Cursor) {p : Place}
    (h : c.toPlace.Moved k L p) :
    CursorMoved k L (skipBodies heredocs c) (skipBodies heredocs (c.elsewhere p)) := by
  induction heredocs generalizing c p with
  | nil => exact ⟨.nil, p, h, rfl⟩
  | cons heredoc heredocs ih =>
    obtain ⟨hfound, p', hp', hnext⟩ := c.linesThrough_moved heredoc.endsAt h
    obtain ⟨hevents, p'', hp'', hlast⟩ := ih _ hp'
    simp only [skipBodies, hfound, hnext]
    refine ⟨?_, p'', hp'', hlast⟩
    dsimp only
    split
    · exact hevents
    -- A body without its terminator is reported where it starts.
    · have hline : (c.elsewhere p).line = c.line + k := h.line_eq
      rw [hline]
      exact .cons (.unterminated _ _) hevents

/-- An embedded document is the same lines. -/
private theorem skipDocument_moved (c : Cursor) {p : Place} (h : c.toPlace.Moved k L p) :
    CursorMoved k L (skipDocument c) (skipDocument (c.elsewhere p)) := by
  obtain ⟨p', hp', hnext⟩ := c.nextLine_moved h
  obtain ⟨hfound, p'', hp'', hlast⟩ := c.nextLine.linesThrough_moved endsDocument hp'
  simp only [skipDocument, hnext, hfound]
  refine ⟨?_, p'', hp'', hlast⟩
  dsimp only
  split
  · exact .nil
  · have hline : (c.elsewhere p).line = c.line + k := h.line_eq
    rw [hline]
    exact .cons (.unterminated _ _) .nil

end Cursors

namespace Reader

/-! ## Punctuation -/

/-- The reader elsewhere, where the line of a loop header is `k` lines further down. -/
def elsewhere (r : Reader) (p : Place) (k : Nat) : Reader :=
  { r with toCursor := r.toCursor.elsewhere p, loopLine := r.loopLine.map (· + k) }

/-- A reading that brings up the same events, moved, and ends with the same reader elsewhere. -/
def ReadingMoved (k L : Nat) (a a' : Reading) : Prop :=
  List.Forall₂ (Event.Moved k L) a.1 a'.1 ∧
    ∃ p, a.2.toPlace.Moved k L p ∧ a'.2 = a.2.elsewhere p k

section Moved

variable {k L : Nat} {p : Place} {r : Reader}

/-- The two readers branch in the same way. -/
theorem ReadingMoved.ite {c : Prop} [Decidable c] {a b a' b' : Reading}
    (ha : c → ReadingMoved k L a a') (hb : ¬c → ReadingMoved k L b b') :
    ReadingMoved k L (if c then a else b) (if c then a' else b') := by
  split
  · next hc => exact ha hc
  · next hc => exact hb hc

private theorem skipValue_moved (h : r.toPlace.Moved k L p) (n : Nat) :
    ReadingMoved k L (r.skipValue n) ((r.elsewhere p k).skipValue n) :=
  ⟨.nil, _, h.along (r.rest.take n), rfl⟩

private theorem skipOperator_moved (h : r.toPlace.Moved k L p) (n : Nat) :
    ReadingMoved k L (r.skipOperator n) ((r.elsewhere p k).skipOperator n) :=
  ⟨.nil, _, h.along (r.rest.take n), rfl⟩

private theorem skipDot_moved (h : r.toPlace.Moved k L p) (n : Nat) :
    ReadingMoved k L (r.skipDot n) ((r.elsewhere p k).skipDot n) :=
  ⟨.nil, _, h.along (r.rest.take n), rfl⟩

/-- A literal whose frame holds no line but the one that it starts on is passed over alike. -/
private theorem skipLiteral_moved (h : r.toPlace.Moved k L p) (n : Nat) {frame : Nat → Frame}
    (hframe : ∀ line, frame (line + k) = (frame line).below k) :
    ReadingMoved k L (r.skipLiteral n frame) ((r.elsewhere p k).skipLiteral n frame) := by
  obtain ⟨hevents, p', hp', hlast⟩ :=
    skipFrames_moved [frame r.line] (h.along (r.rest.take n)) (r.rest.drop n)
  -- The line that the frame is made with is the one of the reader elsewhere.
  have hline : frame (r.elsewhere p k).line = (frame r.line).below k := by
    rw [← hframe]
    exact congrArg frame h.line_eq
  have hlast' := congrArg (fun c => ((r.elsewhere p k).moveTo c).markValue) hlast
  rw [List.map_singleton, ← hline] at hevents hlast'
  exact ⟨hevents, p', hp', hlast'⟩

/-- The flags after a literal are skipped alike. -/
theorem ReadingMoved.skipFlags {a a' : Reading} (h : ReadingMoved k L a a') :
    ReadingMoved k L (a.1, a.2.skipFlags) (a'.1, a'.2.skipFlags) := by
  obtain ⟨hevents, p', hp', hnext⟩ := h
  rw [hnext]
  exact ⟨hevents, _, hp'.along (a.2.rest.take (a.2.rest.takeWhile isRegexFlag).length), rfl⟩

/-- Whether a space comes just before is the same elsewhere. -/
private theorem afterSpace_elsewhere (h : r.toPlace.Moved k L p) :
    (r.elsewhere p k).afterSpace = r.afterSpace :=
  h.endAlike.any_isSpace

/-- A literal may start elsewhere just where it may start here. -/
private theorem operandMayStart_elsewhere (h : r.toPlace.Moved k L p) (next : Option Char) :
    (r.elsewhere p k).operandMayStart next = r.operandMayStart next := by
  rw [operandMayStart, afterSpace_elsewhere h]
  rfl

/-- The frame of a string holds the line on which it starts. -/
private theorem string_below (c : Char) (k line : Nat) :
    Frame.string c (line + k) = (Frame.string c line).below k := rfl

/-- The frame of a percent literal starts `k` lines further down. -/
private theorem percent_below (type delim : Char) (k line : Nat) :
    Frame.percent type delim (line + k) = (Frame.percent type delim line).below k := by
  unfold Frame.percent
  split <;> rfl

/-- From a colon on the text decides, and whether an operand is expected. -/
private theorem readColon_moved (h : r.toPlace.Moved k L p) (cs : List Char) :
    ReadingMoved k L (r.readColon cs) ((r.elsewhere p k).readColon cs) := by
  cases cs with
  | nil => exact skipOperator_moved h 1
  | cons c cs =>
    refine .ite (fun _ => skipDot_moved h 2) fun _ => ?_
    refine .ite (fun _ => skipLiteral_moved h 2 (string_below c k)) fun _ => ?_
    refine .ite (fun _ => skipValue_moved h _) fun _ => ?_
    exact .ite (fun _ => skipValue_moved h _) fun _ => skipOperator_moved h 1

/-- From a percent sign on it may also matter whether a space comes before. -/
private theorem readPercent_moved (h : r.toPlace.Moved k L p) (cs : List Char) :
    ReadingMoved k L (r.readPercent cs) ((r.elsewhere p k).readPercent cs) := by
  simp only [readPercent, operandMayStart_elsewhere h]
  cases percentOpening? cs with
  | none => exact skipOperator_moved h 1
  | some opening =>
    obtain ⟨type, delim, n⟩ := opening
    refine .ite (fun _ => ?_) fun _ => skipOperator_moved h 1
    have hliteral := skipLiteral_moved h n (percent_below type delim k)
    by_cases htype : type = 'r'
    · simp only [if_pos htype]
      exact hliteral.skipFlags
    · simp only [if_neg htype]
      exact hliteral

/-- A slash is read alike elsewhere. -/
private theorem readSlash_moved (h : r.toPlace.Moved k L p) (cs : List Char) :
    ReadingMoved k L (r.readSlash cs) ((r.elsewhere p k).readSlash cs) := by
  simp only [readSlash, operandMayStart_elsewhere h]
  exact .ite (fun _ => (skipLiteral_moved h 1 (fun _ => rfl)).skipFlags) fun _ =>
    skipOperator_moved h 1

/-- A question mark makes a literal of what follows if an operand is expected. -/
private theorem readQuestionMark_moved (h : r.toPlace.Moved k L p) (cs : List Char) :
    ReadingMoved k L (r.readQuestionMark cs) ((r.elsewhere p k).readQuestionMark cs) := by
  unfold readQuestionMark
  cases characterLength? cs with
  | none => exact skipOperator_moved h 1
  | some n => exact .ite (fun _ => skipValue_moved h n) fun _ => skipOperator_moved h 1

/-- Where a heredoc may be announced, a space before it counts. -/
private theorem readLessThan_moved (h : r.toPlace.Moved k L p) (cs : List Char) :
    ReadingMoved k L (r.readLessThan cs) ((r.elsewhere p k).readLessThan cs) := by
  unfold readLessThan
  split
  · next rest =>
    simp only [afterSpace_elsewhere h]
    cases Heredoc.opening? rest with
    | none => exact skipOperator_moved h 1
    | some opening =>
      exact .ite (fun _ => ⟨.nil, _, h.along (r.rest.take (opening.2 + 2)), rfl⟩) fun _ =>
        skipOperator_moved h 1
  · exact skipOperator_moved h 1

/-- Dots are told apart by their number. -/
private theorem readDot_moved (h : r.toPlace.Moved k L p) (cs : List Char) :
    ReadingMoved k L (r.readDot cs) ((r.elsewhere p k).readDot cs) := by
  unfold readDot
  split
  · exact skipOperator_moved h 3
  · exact skipOperator_moved h 2
  · exact skipDot_moved h 1

private theorem readVariable_moved (h : r.toPlace.Moved k L p) (cs : List Char) :
    ReadingMoved k L (r.readVariable cs) ((r.elsewhere p k).readVariable cs) := by
  unfold readVariable
  split <;> exact skipValue_moved h _

/-- The same endless definitions are closed elsewhere. -/
private theorem closeEndless_moved (h : r.toPlace.Moved k L p) :
    ReadingMoved k L r.closeEndless (r.elsewhere p k).closeEndless := by
  refine .ite (fun _ => ⟨.nil, p, h, rfl⟩) fun _ => ⟨?_, p, h, rfl⟩
  -- There is an implied end for each definition that is closed, here as there.
  change List.Forall₂ _ _ ((r.endless.takeWhile (· = r.depth)).map fun _ => impliedEnd)
  rw [List.forall₂_map_left_iff, List.forall₂_map_right_iff]
  exact List.forall₂_same.mpr fun _ _ => .impliedEnd

/-- What a reader remembers about operands is not about the place. -/
theorem ReadingMoved.markOperator {a a' : Reading} (h : ReadingMoved k L a a') :
    ReadingMoved k L (a.1, a.2.markOperator) (a'.1, a'.2.markOperator) := by
  obtain ⟨hevents, p', hp', hnext⟩ := h
  rw [hnext]
  exact ⟨hevents, p', hp', rfl⟩

/-- A semicolon closes the same definitions. -/
private theorem readSemicolon_moved (h : r.toPlace.Moved k L p) :
    ReadingMoved k L r.readSemicolon (r.elsewhere p k).readSemicolon :=
  (closeEndless_moved (r := r.hop 1) (h.along (r.rest.take 1))).markOperator

/-- Brackets change the depth alike. -/
private theorem readSign_moved (h : r.toPlace.Moved k L p) (c : Char) (cs : List Char) :
    ReadingMoved k L (r.readSign c cs) ((r.elsewhere p k).readSign c cs) := by
  refine .ite (fun _ => ⟨.nil, _, h.along (r.rest.take 1), rfl⟩) fun _ => ?_
  refine .ite (fun _ => ⟨.nil, _, h.along (r.rest.take 1), rfl⟩) fun _ => ?_
  refine .ite (fun _ => readSemicolon_moved h) fun _ => ?_
  refine .ite (fun _ => readDot_moved h cs) fun _ => ?_
  exact .ite (fun _ => skipDot_moved h 2) fun _ => skipOperator_moved h 1

/-- All punctuation is read alike elsewhere. -/
private theorem readPunctuation_moved (h : r.toPlace.Moved k L p) (c : Char) (cs : List Char) :
    ReadingMoved k L (r.readPunctuation c cs) ((r.elsewhere p k).readPunctuation c cs) := by
  refine .ite (fun _ => skipLiteral_moved h 1 (string_below c k)) fun _ => ?_
  refine .ite (fun _ => skipValue_moved h _) fun _ => ?_
  refine .ite (fun _ => readColon_moved h cs) fun _ => ?_
  refine .ite (fun _ => readVariable_moved h cs) fun _ => ?_
  refine .ite (fun _ => skipValue_moved h _) fun _ => ?_
  refine .ite (fun _ => readPercent_moved h cs) fun _ => ?_
  refine .ite (fun _ => readSlash_moved h cs) fun _ => ?_
  refine .ite (fun _ => readQuestionMark_moved h cs) fun _ => ?_
  exact .ite (fun _ => readLessThan_moved h cs) fun _ => readSign_moved h c cs

/-! ## Words -/

/-- A keyword stands at the place of the reader. -/
private theorem keywordHere_moved (h : r.toPlace.Moved k L p) (word : String) (cls : KeywordClass)
    (construct : Option Construct) :
    Event.Moved k L (r.keywordHere word cls construct)
      ((r.elsewhere p k).keywordHere word cls construct) :=
  .token (Token.keyword word (some cls) construct {}) h

/-- A constant is the same slice of the text elsewhere. -/
private theorem takeConstant_moved (h : r.toPlace.Moved k L p) (n : Nat) :
    ReadingMoved k L (r.takeConstant n) ((r.elsewhere p k).takeConstant n) :=
  ⟨.cons (.token (Token.constant (String.ofList (r.rest.take n)) {}) h) .nil,
    _, h.along (r.rest.take n), rfl⟩

/-- An identifier is the same slice of the text elsewhere. -/
private theorem takeIdentifier_moved (h : r.toPlace.Moved k L p) (n : Nat) :
    ReadingMoved k L (r.takeIdentifier n) ((r.elsewhere p k).takeIdentifier n) :=
  ⟨.cons (.token (Token.identifier (String.ofList (r.rest.take n)) {}) h) .nil,
    _, h.along (r.rest.take n), rfl⟩

/-- The body of a method is opened alike. -/
private theorem openDefinition_elsewhere (r : Reader) (p : Place) (k : Nat) (endless : Bool) :
    (r.elsewhere p k).openDefinition endless = (r.openDefinition endless).elsewhere p k := by
  cases endless <;> rfl

/-- Opening it does not move the reader. -/
private theorem toPlace_openDefinition (r : Reader) (endless : Bool) :
    (r.openDefinition endless).toPlace = r.toPlace := by
  cases endless <;> rfl

/-- The name of a method, if there is one, and the body that it opens. -/
private theorem name_moved {keyword keyword' : Event} (hkeyword : Event.Moved k L keyword keyword')
    (h : r.toPlace.Moved k L p) (endless : Bool) (n : Nat) :
    ReadingMoved k L
      (if 0 < n then
        ([keyword, .token (Token.identifier (String.ofList (r.rest.take n)) r.location)],
          ((r.openDefinition endless).hop n).markValue)
      else ([keyword], (r.openDefinition endless).markOperator))
      (if 0 < n then
        ([keyword', .token (Token.identifier (String.ofList (r.rest.take n)) p.location)],
          (((r.elsewhere p k).openDefinition endless).hop n).markValue)
      else ([keyword'], ((r.elsewhere p k).openDefinition endless).markOperator)) := by
  have hopened : (r.openDefinition endless).toPlace.Moved k L p := by
    rw [toPlace_openDefinition]
    exact h
  rw [openDefinition_elsewhere]
  refine .ite (fun _ => ?_) fun _ => ⟨.cons hkeyword .nil, p, hopened, rfl⟩
  -- The name stands where the reader is, with its own place moved as that of the reader.
  have hname : Event.Moved k L
      (.token (Token.identifier (String.ofList (r.rest.take n)) r.location))
      (.token (Token.identifier (String.ofList (r.rest.take n)) p.location)) :=
    .token (Token.identifier (String.ofList (r.rest.take n)) {}) h
  exact ⟨.cons hkeyword (.cons hname .nil), _,
    hopened.along ((r.openDefinition endless).rest.take n), rfl⟩

/-- The head of a definition is read alike, with its receiver and its name. -/
private theorem readDefinition_moved (h : r.toPlace.Moved k L p) :
    ReadingMoved k L r.readDefinition (r.elsewhere p k).readDefinition := by
  -- The name comes after the keyword, spaces and the receiver, which move the place alike.
  have hthere := (h.along (r.rest.take 3)).along ((r.hop 3).rest.take
    (spacesLength (r.hop 3).rest +
      receiverLength ((r.hop 3).rest.drop (spacesLength (r.hop 3).rest))))
  unfold readDefinition
  exact name_moved (r := (r.hop 3).hop (spacesLength (r.hop 3).rest +
      receiverLength ((r.hop 3).rest.drop (spacesLength (r.hop 3).rest))))
    (keywordHere_moved h _ _ _) hthere _ _

/-- What follows the keyword of a class is text, which is the same. -/
private theorem readClass_moved (h : r.toPlace.Moved k L p) :
    ReadingMoved k L r.readClass (r.elsewhere p k).readClass := by
  have halong := h.along (r.rest.take 5)
  have hrest : ((r.elsewhere p k).hop 5).markOperator.rest = (r.hop 5).markOperator.rest := rfl
  simp only [readClass, hrest]
  split
  · exact ⟨.cons (keywordHere_moved h _ _ _) .nil, _, halong, rfl⟩
  · exact ⟨.cons (keywordHere_moved h _ _ _) .nil, _, halong, rfl⟩

/-- An `end` closes the same block; one that closes none is reported further down. -/
private theorem readEnd_moved (h : r.toPlace.Moved k L p) :
    ReadingMoved k L r.readEnd (r.elsewhere p k).readEnd := by
  have halong := h.along (r.rest.take 3)
  have hblocks : (r.elsewhere p k).blocks = r.blocks := rfl
  simp only [readEnd, hblocks]
  split
  · have hstray : Event.Moved k L (.strayEnd r.line) (.strayEnd (r.elsewhere p k).line) := by
      rw [show (r.elsewhere p k).line = r.line + k from h.line_eq]
      exact .strayEnd r.line
    exact ⟨.cons hstray (.cons (keywordHere_moved h _ _ _) .nil), _, halong, rfl⟩
  · exact ⟨.cons (keywordHere_moved h _ _ _) .nil, _, halong, rfl⟩
  · exact ⟨.cons (keywordHere_moved h _ _ _) .nil, _, halong, rfl⟩

/-- A loop remembers the line of its header, which is further down. -/
private theorem openBlock_elsewhere (h : r.toPlace.Moved k L p) (word : String) :
    (r.elsewhere p k).openBlock word = (r.openBlock word).elsewhere p k := by
  unfold openBlock
  dsimp only
  split
  · have hline : (r.elsewhere p k).line = r.line + k := h.line_eq
    rw [hline]
    rfl
  · rfl

/-- The `do` of a loop is recognized alike elsewhere. -/
private theorem openBlockOf_elsewhere (h : r.toPlace.Moved k L p) (word : String) :
    (r.elsewhere p k).openBlockOf word = (r.openBlockOf word).elsewhere p k := by
  have hvalue : (r.elsewhere p k).valueExpected = r.valueExpected := rfl
  -- Whether the header of a loop is on this line does not change when both lines do.
  have hloop : (r.elsewhere p k).loopLine = some (r.elsewhere p k).line ↔
      r.loopLine = some r.line := by
    rw [show (r.elsewhere p k).line = r.line + k from h.line_eq]
    change r.loopLine.map (· + k) = some (r.line + k) ↔ _
    cases r.loopLine <;> simp
  unfold openBlockOf
  simp only [hvalue, hloop, openBlock_elsewhere h]
  grind [elsewhere, push]

/-- Opening a block does not move the reader. -/
private theorem toPlace_openBlockOf (r : Reader) (word : String) :
    (r.openBlockOf word).toPlace = r.toPlace := by
  unfold openBlockOf openBlock
  grind [push]

/-- Any other keyword opens the same block, if it opens one. -/
private theorem readOtherKeyword_moved (h : r.toPlace.Moved k L p) (word : String) :
    ReadingMoved k L (r.readOtherKeyword word) ((r.elsewhere p k).readOtherKeyword word) := by
  have hopened : (r.openBlockOf word).toPlace.Moved k L p := by
    rw [toPlace_openBlockOf]
    exact h
  have hkeyword := keywordHere_moved h word .other none
  have halong := hopened.along ((r.openBlockOf word).rest.take word.length)
  simp only [readOtherKeyword, openBlockOf_elsewhere h]
  split
  · exact ⟨.cons hkeyword .nil, _, halong, rfl⟩
  · exact ⟨.cons hkeyword .nil, _, halong, rfl⟩

/-- All keywords are read alike elsewhere. -/
private theorem readKeyword_moved (h : r.toPlace.Moved k L p) (word : String) :
    ReadingMoved k L (r.readKeyword word) ((r.elsewhere p k).readKeyword word) := by
  refine .ite (fun _ => readDefinition_moved h) fun _ => ?_
  refine .ite (fun _ => ⟨.cons (keywordHere_moved h _ _ _) .nil, _, h.along (r.rest.take 6), rfl⟩)
    fun _ => ?_
  refine .ite (fun _ => readClass_moved h) fun _ => ?_
  exact .ite (fun _ => readEnd_moved h) fun _ => readOtherKeyword_moved h word

/-- A word after two colons goes on with a path, and whether they are there is the same. -/
private theorem readWord_moved (h : r.toPlace.Moved k L p) :
    ReadingMoved k L r.readWord (r.elsewhere p k).readWord := by
  have hrooted : [':', ':'].isPrefixOf (r.elsewhere p k).before = [':', ':'].isPrefixOf r.before :=
    h.endAlike.isPrefixOf_colons
  unfold readWord
  simp only [hrooted]
  refine .ite (fun _ => ?_) fun _ => ?_
  · exact .ite (fun _ => takeConstant_moved h _) fun _ => takeIdentifier_moved h _
  refine .ite (fun _ => ⟨.nil, _, h.along (r.rest.take _), rfl⟩) fun _ => ?_
  refine .ite (fun _ => readKeyword_moved h _) fun _ => ?_
  exact .ite (fun _ => takeConstant_moved h _) fun _ => takeIdentifier_moved h _

/-! ## Steps -/

/-- A comment stands at the place of the reader. -/
private theorem comment_moved (h : r.toPlace.Moved k L p) (text : String) :
    Event.Moved k L (.token (Token.comment text r.location))
      (.token (Token.comment text p.location)) :=
  .token (Token.comment text {}) h

/-- A comment reaches to the end of the same line elsewhere. -/
private theorem readComment_moved (h : r.toPlace.Moved k L p) :
    ReadingMoved k L r.readComment (r.elsewhere p k).readComment :=
  ⟨.cons (comment_moved h (String.ofList r.currentLine)) .nil, _, h.along _, rfl⟩

/-- At the end of a line the bodies of heredocs come first and then the ends of definitions. -/
private theorem readNewline_moved (h : r.toPlace.Moved k L p) :
    ReadingMoved k L r.readNewline (r.elsewhere p k).readNewline := by
  -- The place moves three times: to the next line, over the bodies, and not at all for the ends.
  obtain ⟨p₁, hp₁, hnext⟩ := r.toCursor.nextLine_moved h
  obtain ⟨hreports, p₂, hp₂, hlast⟩ := skipBodies_moved r.heredocs r.toCursor.nextLine hp₁
  obtain ⟨hends, p₃, hp₃, hclosed⟩ := closeEndless_moved
    (r := { r.moveTo (skipBodies r.heredocs r.nextLine).1 with heredocs := [] }) hp₂
  have hbodies : skipBodies (r.elsewhere p k).heredocs (r.elsewhere p k).nextLine =
      skipBodies r.heredocs (r.nextLine.elsewhere p₁) :=
    congrArg (skipBodies r.heredocs) hnext
  unfold readNewline
  rw [hbodies]
  have hreader : ({ (r.elsewhere p k).moveTo
        (skipBodies r.heredocs (r.nextLine.elsewhere p₁)).1 with heredocs := [] } : Reader) =
      { r.moveTo (skipBodies r.heredocs r.nextLine).1 with heredocs := [] }.elsewhere p₂ k :=
    congrArg (fun c => ({ (r.elsewhere p k).moveTo c with heredocs := [] } : Reader)) hlast
  simp only [hreader, hclosed]
  exact ⟨List.rel_append hreports hends, p₃, hp₃, rfl⟩

/-- Whatever stands next is read alike. -/
private theorem read_moved (h : r.toPlace.Moved k L p) (c : Char) (cs : List Char) :
    ReadingMoved k L (r.read c cs) ((r.elsewhere p k).read c cs) := by
  refine .ite (fun _ => readNewline_moved h) fun _ => ?_
  refine .ite (fun _ => ⟨.nil, _, h.along (r.rest.take 1), rfl⟩) fun _ => ?_
  refine .ite (fun _ => ?_) fun _ => ?_
  -- A backslash before a newline continues the line: both go on to the next one.
  · obtain ⟨p', hp', hnext⟩ := (r.toCursor.hop 1).nextLine_moved (h.along (r.rest.take 1))
    exact ⟨.nil, p', hp', congrArg (r.elsewhere p k).moveTo hnext⟩
  refine .ite (fun _ => readComment_moved h) fun _ => ?_
  exact .ite (fun _ => readWord_moved h) fun _ => readPunctuation_moved h c cs

/-- One step elsewhere is the same step, or both texts end here. -/
theorem step?_moved (h : r.toPlace.Moved k L p) :
    Option.Rel (ReadingMoved k L) r.step? (r.elsewhere p k).step? := by
  have hcolumn : (r.elsewhere p k).column = 0 ↔ r.column = 0 := h.column_eq_zero_iff
  have hrest : (r.elsewhere p k).rest = r.rest := rfl
  -- Documents and the marker of the end are looked for at the start of a line, which both are at.
  simp only [step?, hrest, hcolumn]
  cases r.rest with
  | nil => exact .none
  | cons c cs =>
    dsimp only
    split
    · exact .none
    split
    · obtain ⟨hevents, p', hp', hlast⟩ := skipDocument_moved r.toCursor h
      exact .some ⟨hevents, p', hp', congrArg (r.elsewhere p k).moveTo hlast⟩
    · exact .some (read_moved h c cs)

/-- What is left to say at the end of the text is the same, further down. -/
private theorem finish_moved (h : r.toPlace.Moved k L p) :
    List.Forall₂ (Event.Moved k L) r.finish (r.elsewhere p k).finish := by
  -- Only the heredoc that is still to come has a line.
  have hheredoc : List.Forall₂ (Event.Moved k L)
      (r.heredocs.head?.map fun d =>
        Event.unterminated (.heredoc (String.ofList d.terminator)) r.line).toList
      (r.heredocs.head?.map fun d =>
        Event.unterminated (.heredoc (String.ofList d.terminator)) p.line).toList := by
    cases r.heredocs with
    | nil => exact .nil
    | cons d heredocs =>
      rw [h.line_eq]
      exact .cons (.unterminated _ _) .nil
  have hends : List.Forall₂ (Event.Moved k L) (r.endless.map fun _ => impliedEnd)
      (r.endless.map fun _ => impliedEnd) := by
    rw [List.forall₂_map_left_iff, List.forall₂_map_right_iff]
    exact List.forall₂_same.mpr fun _ _ => .impliedEnd
  have hblocks : List.Forall₂ (Event.Moved k L)
      (if r.blocks.isEmpty then [] else [Event.unclosedBlocks r.blocks.length])
      (if r.blocks.isEmpty then [] else [Event.unclosedBlocks r.blocks.length]) := by
    split
    · exact .nil
    · exact .cons (.unclosedBlocks _) .nil
  exact List.rel_append (List.rel_append hheredoc hends) hblocks

/-- Elsewhere the same text brings up the same events, moved. -/
theorem events_moved (h : r.toPlace.Moved k L p) :
    List.Forall₂ (Event.Moved k L) r.events (r.elsewhere p k).events := by
  -- By induction on the steps of one reader: the other one takes the same.
  induction r using events.induct generalizing p with
  | case1 r hstep =>
    have hmoved := step?_moved h
    rw [hstep] at hmoved
    generalize hstep' : (r.elsewhere p k).step? = after at hmoved
    cases hmoved with
    | none =>
      rw [events_of_none hstep, events_of_none hstep']
      exact finish_moved h
  | case2 r found next hstep ih =>
    have hmoved := step?_moved h
    rw [hstep] at hmoved
    generalize hstep' : (r.elsewhere p k).step? = after at hmoved
    cases hmoved with
    | @some _ after hmoved =>
      obtain ⟨hevents, p', hp', hnext⟩ := hmoved
      rw [events_of_step? hstep, events_of_step? hstep', hnext]
      exact List.rel_append hevents (ih hp')

end Moved

end Reader

end ScopeTags.Source
