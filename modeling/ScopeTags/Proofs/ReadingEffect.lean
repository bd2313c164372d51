import ScopeTags.Source.Lexing

/-!
# What one step of reading does to open scopes

A reader keeps the open blocks on one stack and the endless definitions whose body is open on
another.  Only few steps touch either of them, and each such step brings up the token that says so.
`Reader.Effect` lists what a step can do.

## Key results

- `Reader.step?_moves`: a step opens one scope, closes one construct, or closes endless definitions,
  and goes to no earlier line.
-/

namespace ScopeTags.Source

/-- The part that a token plays for the nesting of scopes. -/
inductive Bracket where
  /-- The keyword of a construct; a definition may be endless. -/
  | opens (endless : Bool)
  /-- The end of a construct, which stands in the text or is implied. -/
  | closes (implied : Bool)
deriving DecidableEq, Repr

/-- The bracket that an event is, where `endless` says whether it begins an endless definition.
    Only an end that stands nowhere in the text has no line. -/
def Event.bracket? (endless : Bool) : Event → Option Bracket
  | token t =>
    match t.keywordClass with
    | some .newScope => some (.opens endless)
    | some .scopeEnd => some (.closes (t.location.line = 0))
    | _ => none
  | _ => none

/-- Whether an event is the keyword of a method definition. -/
def Event.isDefinition : Event → Bool
  | token t => t.text = "def" ∧ t.keywordClass = some .newScope
  | _ => false

/-- The brackets among some events. -/
def bracketsOf (endless : Bool) (found : List Event) : List Bracket :=
  found.filterMap (Event.bracket? endless)

/-! ## Lines -/

/-- No character leads to an earlier line. -/
private theorem Place.line_le_past (p : Place) (c : Char) : p.line ≤ (p.past c).line := by
  rw [past]
  split
  · exact Nat.le_succ p.line
  · exact Nat.le_refl p.line

/-- The way to the next line does not lower the line. -/
private theorem Cursor.line_le_nextLine (k : Cursor) : k.line ≤ k.nextLine.line := by
  rw [nextLine]
  split
  · exact Nat.le_refl k.line
  · exact Place.line_le_past (k.along (k.rest.takeWhile (· ≠ '\n'))) _

/-- Reading lines up to one of a kind does not lower the line. -/
private theorem Cursor.line_le_linesThrough (ends : List Char → Bool) (k : Cursor) :
    k.line ≤ (k.linesThrough ends).2.line := by
  fun_induction linesThrough ends k with
  | case1 k h => exact Nat.le_refl k.line
  | case2 k h hends => exact k.line_le_nextLine
  | case3 k h hends ih => exact Nat.le_trans k.line_le_nextLine ih

/-- A literal ends on the line where it starts or on a later one. -/
private theorem line_le_skipFrames (frames : List Frame) (p : Place) (cs : List Char) :
    p.line ≤ (skipFrames frames p cs).1.line := by
  induction cs generalizing frames p with
  | nil => cases frames <;> exact Nat.le_refl p.line
  | cons c cs ih =>
    cases frames with
    | nil => exact Nat.le_refl p.line
    | cons frame frames => exact Nat.le_trans (p.line_le_past c) (ih _ _)

/-- The bodies of heredocs do not lower the line. -/
private theorem line_le_skipBodies (heredocs : List Heredoc) (k : Cursor) :
    k.line ≤ (skipBodies heredocs k).1.line := by
  induction heredocs generalizing k with
  | nil => exact Nat.le_refl k.line
  | cons h heredocs ih => exact Nat.le_trans (k.line_le_linesThrough _) (ih _)

/-- An embedded document does not lower the line. -/
theorem line_le_skipDocument (k : Cursor) : k.line ≤ (skipDocument k).1.line :=
  Nat.le_trans k.line_le_nextLine (k.nextLine.line_le_linesThrough _)

/-! ## Remarks are no brackets -/

/-- Brackets come in the order of the events. -/
theorem bracketsOf_append (b : Bool) (es es' : List Event) :
    bracketsOf b (es ++ es') = bracketsOf b es ++ bracketsOf b es' :=
  List.filterMap_append

/-- A literal brings up no bracket. -/
private theorem bracketsOf_skipFrames (b : Bool) (frames : List Frame) (p : Place)
    (cs : List Char) : bracketsOf b (skipFrames frames p cs).2 = [] := by
  induction cs generalizing frames p with
  | nil =>
    cases frames with
    | nil => rfl
    | cons frame frames =>
      -- Each frame that is left reports a literal that is not closed.
      simp only [skipFrames, bracketsOf, List.filterMap_filterMap, List.filterMap_eq_nil_iff]
      intro f _
      cases f <;> rfl
  | cons c cs ih =>
    cases frames with
    | nil => rfl
    | cons frame frames => exact ih _ _

/-- The bodies of heredocs bring up no bracket. -/
private theorem bracketsOf_skipBodies (b : Bool) (heredocs : List Heredoc) (k : Cursor) :
    bracketsOf b (skipBodies heredocs k).2 = [] := by
  induction heredocs generalizing k with
  | nil => rfl
  | cons h heredocs ih =>
    simp only [skipBodies]
    -- A body without its terminator leaves a remark, which is no bracket.
    split
    · exact ih _
    · exact ih _

/-- An embedded document brings up no bracket. -/
private theorem bracketsOf_skipDocument (b : Bool) (k : Cursor) :
    bracketsOf b (skipDocument k).2 = [] := by
  simp only [skipDocument]
  split <;> rfl

namespace Reader

/-! ## Effects -/

/-- How many modules, classes and methods with an `end` of their own are open. -/
def constructs (r : Reader) : Nat := r.blocks.count .construct

/-- Whether a method definition that starts here has a name and is an endless one. -/
def definesEndless (r : Reader) : Bool :=
  let head := r.rest.drop 3
  let spaces := spacesLength head
  let name := head.drop (spaces + receiverLength (head.drop spaces))
  let n := methodNameLength name
  0 < n ∧ isEndless (name.drop n)

/-- Whether a reading that brings up `found` begins an endless definition. -/
def beginsEndless (r : Reader) (found : List Event) : Bool :=
  found.any Event.isDefinition && r.definesEndless

/-- What a reading can do to the open constructs and endless definitions of `r`, and the brackets
    that it brings up. -/
inductive Effect (r : Reader) : Reading → Prop where
  | opensConstruct {found : List Event} {next : Reader}
      (constructs_eq : next.constructs = r.constructs + 1) (endless_eq : next.endless = r.endless)
      (brackets_eq : ∀ b, bracketsOf b found = [.opens b])
      (begins_eq : r.beginsEndless found = false) : Effect r (found, next)
  | opensEndless {found : List Event} {next : Reader} (depth : Nat)
      (constructs_eq : next.constructs = r.constructs)
      (endless_eq : next.endless = depth :: r.endless)
      (brackets_eq : ∀ b, bracketsOf b found = [.opens b])
      (begins_eq : r.beginsEndless found = true) : Effect r (found, next)
  | closesConstruct {found : List Event} {next : Reader}
      (constructs_eq : r.constructs = next.constructs + 1) (endless_eq : next.endless = r.endless)
      (brackets_eq : ∀ b, bracketsOf b found = [.closes false]) : Effect r (found, next)
  /-- An `end` closes nothing, as no block is open. -/
  | strays {found : List Event} {next : Reader} (line : Nat) (mem : .strayEnd line ∈ found)
      (blocks_eq : r.blocks = []) (constructs_eq : next.constructs = r.constructs)
      (endless_eq : next.endless = r.endless)
      (brackets_eq : ∀ b, bracketsOf b found = [.closes false])
      (end_mem : r.keywordHere "end" .scopeEnd none ∈ found) : Effect r (found, next)
  /-- Endless definitions are closed, or none is and nothing changes. -/
  | settles {found : List Event} {next : Reader} (closed : List Nat)
      (constructs_eq : next.constructs = r.constructs)
      (endless_eq : r.endless = closed ++ next.endless)
      (brackets_eq : ∀ b, bracketsOf b found = closed.map fun _ => .closes true) :
      Effect r (found, next)

/-- A reading that leaves open scopes alone and goes to no earlier line. -/
structure Quiet (r : Reader) (reading : Reading) : Prop where
  line_le : r.line ≤ reading.2.line
  constructs_eq : reading.2.constructs = r.constructs
  endless_eq : reading.2.endless = r.endless
  brackets_eq : ∀ b, bracketsOf b reading.1 = []

/-- A reading that has one of the effects and goes to no earlier line. -/
structure Moves (r : Reader) (reading : Reading) : Prop where
  line_le : r.line ≤ reading.2.line
  effect : r.Effect reading

/-- To leave open scopes alone is to close no endless definition. -/
theorem Quiet.moves {r : Reader} {reading : Reading} (h : r.Quiet reading) : r.Moves reading :=
  ⟨h.line_le, .settles [] h.constructs_eq h.endless_eq.symm h.brackets_eq⟩

/-! ## Punctuation -/

private theorem skipValue_quiet (r : Reader) (n : Nat) : r.Quiet (r.skipValue n) :=
  ⟨Nat.le_refl r.line, rfl, rfl, fun _ => rfl⟩

private theorem skipOperator_quiet (r : Reader) (n : Nat) : r.Quiet (r.skipOperator n) :=
  ⟨Nat.le_refl r.line, rfl, rfl, fun _ => rfl⟩

private theorem skipDot_quiet (r : Reader) (n : Nat) : r.Quiet (r.skipDot n) :=
  ⟨Nat.le_refl r.line, rfl, rfl, fun _ => rfl⟩

/-- A literal may go over lines, but it leaves open scopes alone. -/
private theorem skipLiteral_quiet (r : Reader) (n : Nat) (frame : Nat → Frame) :
    r.Quiet (r.skipLiteral n frame) where
  line_le := line_le_skipFrames [frame r.line] (r.toCursor.hop n).toPlace (r.toCursor.hop n).rest
  constructs_eq := rfl
  endless_eq := rfl
  brackets_eq b := bracketsOf_skipFrames b _ _ _

/-- The flags after it are characters of its last line. -/
theorem Quiet.skipFlags {r : Reader} {found : List Event} {next : Reader}
    (h : r.Quiet (found, next)) : r.Quiet (found, next.skipFlags) :=
  ⟨h.line_le, h.constructs_eq, h.endless_eq, h.brackets_eq⟩

/-- No symbol opens or closes a scope. -/
private theorem readColon_quiet (r : Reader) (cs : List Char) : r.Quiet (r.readColon cs) := by
  unfold readColon
  split
  · exact r.skipOperator_quiet 1
  split
  · exact r.skipDot_quiet 2
  split
  · exact r.skipLiteral_quiet 2 _
  split
  · exact r.skipValue_quiet _
  split
  · exact r.skipValue_quiet _
  · exact r.skipOperator_quiet 1

/-- A percent literal opens and closes no scope. -/
private theorem readPercent_quiet (r : Reader) (cs : List Char) : r.Quiet (r.readPercent cs) := by
  unfold readPercent
  split
  · next type delim n _ =>
    split
    · have hliteral := r.skipLiteral_quiet n (Frame.percent type delim)
      dsimp only
      split
      · exact hliteral.skipFlags
      · exact hliteral
    · exact r.skipOperator_quiet 1
  · exact r.skipOperator_quiet 1

/-- A regular expression opens and closes no scope. -/
private theorem readSlash_quiet (r : Reader) (cs : List Char) : r.Quiet (r.readSlash cs) := by
  unfold readSlash
  split
  · exact (r.skipLiteral_quiet 1 (Frame.regex false)).skipFlags
  · exact r.skipOperator_quiet 1

/-- A character literal opens and closes no scope. -/
private theorem readQuestionMark_quiet (r : Reader) (cs : List Char) :
    r.Quiet (r.readQuestionMark cs) := by
  unfold readQuestionMark
  split
  · split
    · exact r.skipValue_quiet _
    · exact r.skipOperator_quiet 1
  · exact r.skipOperator_quiet 1

/-- The announcement of a heredoc does not: its body comes later. -/
private theorem readLessThan_quiet (r : Reader) (cs : List Char) : r.Quiet (r.readLessThan cs) := by
  unfold readLessThan
  split
  · split
    · split
      · exact ⟨Nat.le_refl r.line, rfl, rfl, fun _ => rfl⟩
      · exact r.skipOperator_quiet 1
    · exact r.skipOperator_quiet 1
  · exact r.skipOperator_quiet 1

/-- Dots open and close no scope. -/
private theorem readDot_quiet (r : Reader) (cs : List Char) : r.Quiet (r.readDot cs) := by
  unfold readDot
  split
  · exact r.skipOperator_quiet 3
  · exact r.skipOperator_quiet 2
  · exact r.skipDot_quiet 1

/-- A variable opens and closes no scope. -/
private theorem readVariable_quiet (r : Reader) (cs : List Char) : r.Quiet (r.readVariable cs) := by
  unfold readVariable
  split <;> exact r.skipValue_quiet _

/-- The endless definitions that are closed are the innermost ones. -/
theorem closeEndless_effect (r : Reader) :
    ∃ closed, r.endless = closed ++ r.closeEndless.2.endless ∧
      r.closeEndless.2.line = r.line ∧ r.closeEndless.2.constructs = r.constructs ∧
      ∀ b, bracketsOf b r.closeEndless.1 = closed.map fun _ => .closes true := by
  unfold closeEndless
  split
  · exact ⟨[], rfl, rfl, rfl, fun _ => rfl⟩
  · refine ⟨r.endless.takeWhile (· = r.depth), List.takeWhile_append_dropWhile.symm, rfl, rfl, ?_⟩
    -- There is one implied end for each of them.
    intro b
    rw [bracketsOf, List.filterMap_map]
    exact congrFun List.filterMap_eq_map _

/-- A semicolon can close endless definitions. -/
private theorem readSemicolon_moves (r : Reader) : r.Moves r.readSemicolon := by
  obtain ⟨closed, hendless, hline, hconstructs, hbrackets⟩ := (r.hop 1).closeEndless_effect
  exact ⟨Nat.le_of_eq hline.symm, .settles closed hconstructs hendless hbrackets⟩

/-- Of brackets and operators only the semicolon closes anything: a bracket changes the depth, which
    decides what a later semicolon closes. -/
private theorem readSign_moves (r : Reader) (c : Char) (cs : List Char) :
    r.Moves (r.readSign c cs) := by
  unfold readSign
  split
  · exact Quiet.moves ⟨Nat.le_refl r.line, rfl, rfl, fun _ => rfl⟩
  split
  · exact Quiet.moves ⟨Nat.le_refl r.line, rfl, rfl, fun _ => rfl⟩
  split
  · exact r.readSemicolon_moves
  split
  · exact (r.readDot_quiet cs).moves
  split
  · exact (r.skipDot_quiet 2).moves
  · exact (r.skipOperator_quiet 1).moves

/-- All punctuation has one of the effects: only a semicolon closes endless definitions. -/
private theorem readPunctuation_moves (r : Reader) (c : Char) (cs : List Char) :
    r.Moves (r.readPunctuation c cs) := by
  unfold readPunctuation
  split
  · exact (r.skipLiteral_quiet 1 _).moves
  split
  · exact (r.skipValue_quiet _).moves
  split
  · exact (r.readColon_quiet cs).moves
  split
  · exact (r.readVariable_quiet cs).moves
  split
  · exact (r.skipValue_quiet _).moves
  split
  · exact (r.readPercent_quiet cs).moves
  split
  · exact (r.readSlash_quiet cs).moves
  split
  · exact (r.readQuestionMark_quiet cs).moves
  split
  · exact (r.readLessThan_quiet cs).moves
  · exact r.readSign_moves c cs

/-! ## Words -/

/-- A constant is no bracket. -/
private theorem takeConstant_quiet (r : Reader) (n : Nat) : r.Quiet (r.takeConstant n) :=
  ⟨Nat.le_refl r.line, rfl, rfl, fun _ => rfl⟩

/-- An identifier is no bracket. -/
private theorem takeIdentifier_quiet (r : Reader) (n : Nat) : r.Quiet (r.takeIdentifier n) :=
  ⟨Nat.le_refl r.line, rfl, rfl, fun _ => rfl⟩

/-- The body of a construct counts as one. -/
private theorem constructs_push_construct (r : Reader) :
    (r.push .construct).constructs = r.constructs + 1 :=
  List.count_cons_self

/-- A block of another kind does not count as a construct. -/
private theorem constructs_push_of_ne (r : Reader) {b : Block} (hb : b ≠ .construct) :
    (r.push b).constructs = r.constructs :=
  List.count_cons_of_ne hb

/-- A definition opens either kind of scope. -/
def OpensOne (r : Reader) (endless : Bool) (next : Reader) : Prop :=
  next.constructs = (if endless then r.constructs else r.constructs + 1) ∧
    next.endless = if endless then r.depth :: r.endless else r.endless

/-- Whichever kind of scope is opened, the keyword says so. -/
theorem OpensOne.effect {r next : Reader} {endless : Bool} {found : List Event}
    (h : r.OpensOne endless next) (hfound : ∀ b, bracketsOf b found = [.opens b])
    (hbegins : r.beginsEndless found = endless) : r.Effect (found, next) := by
  cases endless with
  | false => exact .opensConstruct h.1 h.2 hfound hbegins
  | true => exact .opensEndless r.depth h.1 h.2 hfound hbegins

/-- The body of a method is a construct or endless. -/
private theorem openDefinition_opensOne (r : Reader) (endless : Bool) :
    r.OpensOne endless (r.openDefinition endless) := by
  cases endless with
  | false => exact ⟨r.constructs_push_construct, rfl⟩
  | true => exact ⟨rfl, rfl⟩

/-- A definition is opened on the line of its name. -/
theorem line_openDefinition (r : Reader) (endless : Bool) :
    (r.openDefinition endless).line = r.line := by
  cases endless <;> rfl

/-- A definition opens one scope, with or without a name. -/
private theorem readDefinition_moves (r : Reader) : r.Moves r.readDefinition := by
  unfold readDefinition
  extract_lets head spaces receiver there n construct opened keyword
  have hline : r.line ≤ opened.line := Nat.le_of_eq (there.line_openDefinition _).symm
  have hopened : r.OpensOne r.definesEndless opened := there.openDefinition_opensOne _
  have hkeyword : ∀ b, keyword.bracket? b = some (.opens b) := fun _ => rfl
  have hdefinition : keyword.isDefinition = true := rfl
  -- The keyword comes first, so the reading begins an endless definition if the text defines one.
  have hbegins : ∀ more, r.beginsEndless (keyword :: more) = r.definesEndless := by
    simp [beginsEndless, hdefinition]
  -- Only this is needed of the two from here on; with their values the checks below take seconds.
  clear_value opened keyword
  -- The name of the method is no bracket, so it does not matter whether there is one.
  split
  · have hbrackets : ∀ t l b, bracketsOf b [keyword, .token (Token.identifier t l)] =
        [.opens b] := fun t l b => List.filterMap_cons_some (hkeyword b)
    exact ⟨hline, OpensOne.effect hopened (hbrackets _ _) (hbegins _)⟩
  · have hbrackets : ∀ b, bracketsOf b [keyword] = [.opens b] := fun b =>
      List.filterMap_cons_some (hkeyword b)
    exact ⟨hline, OpensOne.effect hopened hbrackets (hbegins _)⟩

/-- A class opens a construct, unless it is a singleton class. -/
private theorem readClass_moves (r : Reader) : r.Moves r.readClass := by
  unfold readClass
  dsimp only
  split
  · -- The body of a singleton class is no construct, and its keyword opens none.
    refine Quiet.moves ⟨Nat.le_refl r.line, ?_, rfl, fun _ => rfl⟩
    exact constructs_push_of_ne _ (by decide)
  · exact ⟨Nat.le_refl r.line,
      .opensConstruct (constructs_push_construct _) rfl (fun _ => rfl) rfl⟩

/-- An `end` in the text has a line, which tells it from an implied one. -/
private theorem readEnd_moves (r : Reader) (hline : 0 < r.line) : r.Moves r.readEnd := by
  have hbracket : ∀ b, bracketsOf b [r.keywordHere "end" .scopeEnd none] = [.closes false] := by
    intro b
    -- An implied end is the one that has no line, and lines are counted from one.
    have hpos : ¬(r.line : Int) = 0 := by omega
    change [Bracket.closes (decide ((r.line : Int) = 0))] = _
    rw [decide_eq_false hpos]
  unfold readEnd
  dsimp only
  split
  · next hblocks =>
    exact ⟨Nat.le_refl r.line, .strays r.line List.mem_cons_self hblocks rfl rfl hbracket
      (List.mem_cons_of_mem _ List.mem_cons_self)⟩
  · next blocks hblocks =>
    refine ⟨Nat.le_refl r.line, .closesConstruct ?_ rfl hbracket⟩
    rw [constructs, hblocks]
    exact List.count_cons_self
  · next block blocks hne hblocks =>
    refine Quiet.moves ⟨Nat.le_refl r.line, ?_, rfl, fun _ => rfl⟩
    -- The block was a plain one or that of a singleton class, and neither was counted.
    have hblock : block ≠ .construct := fun h => hne (h ▸ rfl)
    rw [constructs, constructs, hblocks]
    exact (List.count_cons_of_ne hblock).symm

/-- The block of a conditional or a loop is no construct. -/
private theorem openBlock_quiet (r : Reader) (word : String) : r.Quiet ([], r.openBlock word) := by
  have hpush := r.constructs_push_of_ne (b := .plain) (by decide)
  unfold openBlock
  dsimp only
  split
  · exact ⟨Nat.le_refl r.line, hpush, rfl, fun _ => rfl⟩
  · exact ⟨Nat.le_refl r.line, hpush, rfl, fun _ => rfl⟩

/-- No other keyword opens a construct. -/
private theorem openBlockOf_quiet (r : Reader) (word : String) :
    r.Quiet ([], r.openBlockOf word) := by
  have hsame : r.Quiet ([], r) := ⟨Nat.le_refl r.line, rfl, rfl, fun _ => rfl⟩
  unfold openBlockOf
  split
  · -- A modifier opens nothing.
    split
    · exact r.openBlock_quiet word
    · exact hsame
  split
  · exact r.openBlock_quiet word
  split
  · split
    · -- The `do` belongs to the header of a loop.
      exact ⟨Nat.le_refl r.line, rfl, rfl, fun _ => rfl⟩
    · exact ⟨Nat.le_refl r.line, r.constructs_push_of_ne (by decide), rfl, fun _ => rfl⟩
  · exact hsame

/-- Any other keyword opens and closes no scope. -/
private theorem readOtherKeyword_quiet (r : Reader) (word : String) :
    r.Quiet (r.readOtherKeyword word) := by
  have hopened := r.openBlockOf_quiet word
  unfold readOtherKeyword
  dsimp only
  split
  · exact ⟨hopened.line_le, hopened.constructs_eq, hopened.endless_eq, fun _ => rfl⟩
  · exact ⟨hopened.line_le, hopened.constructs_eq, hopened.endless_eq, fun _ => rfl⟩

/-- Every keyword has one of the effects. -/
private theorem readKeyword_moves (r : Reader) (word : String) (hline : 0 < r.line) :
    r.Moves (r.readKeyword word) := by
  unfold readKeyword
  split
  · exact r.readDefinition_moves
  split
  · exact ⟨Nat.le_refl r.line,
      .opensConstruct (constructs_push_construct _) rfl (fun _ => rfl) rfl⟩
  split
  · exact r.readClass_moves
  split
  · exact r.readEnd_moves hline
  · exact (r.readOtherKeyword_quiet word).moves

/-- Every word has one of the effects. -/
private theorem readWord_moves (r : Reader) (hline : 0 < r.line) : r.Moves r.readWord := by
  unfold readWord
  dsimp only
  split
  · split
    · exact (r.takeConstant_quiet _).moves
    · exact (r.takeIdentifier_quiet _).moves
  split
  · exact Quiet.moves ⟨Nat.le_refl r.line, rfl, rfl, fun _ => rfl⟩
  split
  · exact r.readKeyword_moves _ hline
  split
  · exact (r.takeConstant_quiet _).moves
  · exact (r.takeIdentifier_quiet _).moves

/-! ## Steps -/

/-- The end of a line can close endless definitions, after the bodies of heredocs. -/
private theorem readNewline_moves (r : Reader) : r.Moves r.readNewline := by
  have hlast := Nat.le_trans r.line_le_nextLine (line_le_skipBodies r.heredocs r.nextLine)
  obtain ⟨closed, hendless, hline, hconstructs, hbrackets⟩ := closeEndless_effect
    { r.moveTo (skipBodies r.heredocs r.nextLine).1 with heredocs := [] }
  -- The remarks on the bodies come first and are no brackets.
  refine ⟨Nat.le_trans hlast (Nat.le_of_eq hline.symm), .settles closed hconstructs hendless ?_⟩
  intro b
  rw [bracketsOf_append, bracketsOf_skipBodies, List.nil_append]
  exact hbrackets b

/-- Whatever stands next has one of the effects. -/
private theorem read_moves (r : Reader) (c : Char) (cs : List Char) (hline : 0 < r.line) :
    r.Moves (r.read c cs) := by
  unfold read
  split
  · exact r.readNewline_moves
  split
  · exact Quiet.moves ⟨Nat.le_refl r.line, rfl, rfl, fun _ => rfl⟩
  split
  · exact Quiet.moves ⟨(r.toCursor.hop 1).line_le_nextLine, rfl, rfl, fun _ => rfl⟩
  split
  · exact Quiet.moves ⟨Nat.le_refl r.line, rfl, rfl, fun _ => rfl⟩
  split
  · exact r.readWord_moves hline
  · exact r.readPunctuation_moves c cs

/-- Every step has one of the effects and goes to no earlier line. -/
theorem step?_moves {r : Reader} {reading : Reading} (hline : 0 < r.line)
    (h : r.step? = some reading) : r.Moves reading := by
  unfold step? at h
  split at h
  · cases h
  split at h
  · cases h
  split at h
  · cases h
    exact Quiet.moves ⟨line_le_skipDocument r.toCursor, rfl, rfl,
      fun b => bracketsOf_skipDocument b r.toCursor⟩
  · cases h
    exact r.read_moves _ _ hline

/-- The two marks that stand at the start of a line begin with an underscore and an equals sign. -/
theorem step?_eq_read {r : Reader} {c : Char} {cs : List Char} (h : r.rest = c :: cs)
    (hc : r.column ≠ 0 ∨ c ≠ '_' ∧ c ≠ '=') : r.step? = some (r.read c cs) := by
  -- In either case the first character of the mark tells.
  have hmarker : ¬(r.column = 0 ∧ startsEndMarker (c :: cs) = true) := by
    rintro ⟨h0, hm⟩
    obtain ⟨h_, -⟩ := hc.resolve_left (not_not_intro h0)
    simp only [startsEndMarker, Bool.and_eq_true, List.isPrefixOf_iff_prefix] at hm
    exact h_ (List.cons_prefix_cons.mp hm.1).1.symm
  have hdocument : ¬(r.column = 0 ∧ startsDocument (c :: cs) = true) := by
    rintro ⟨h0, hd⟩
    obtain ⟨-, he⟩ := hc.resolve_left (not_not_intro h0)
    simp only [startsDocument, Bool.and_eq_true, List.isPrefixOf_iff_prefix] at hd
    exact he (List.cons_prefix_cons.mp hd.1).1.symm
  rw [step?, h]
  simp only [if_neg hmarker, if_neg hdocument]

/-- A newline is read as the end of a line, wherever it stands. -/
theorem step?_newline {r : Reader} {cs : List Char} (h : r.rest = '\n' :: cs) :
    r.step? = some r.readNewline :=
  step?_eq_read h (.inr (by decide))

/-- Where no step is left, the end of the text has the last word. -/
theorem events_of_none {r : Reader} (h : r.step? = none) : r.events = r.finish := by
  rw [events]
  split
  · rfl
  · next hs => rw [h] at hs; cases hs

/-- What a step brings up comes before all else. -/
theorem events_of_step? {r next : Reader} {found : List Event}
    (h : r.step? = some (found, next)) : r.events = found ++ next.events := by
  rw [events]
  split
  · next hn => rw [h] at hn; cases hn
  · next hs =>
    rw [h, Option.some.injEq, Prod.mk.injEq] at hs
    rw [hs.1, hs.2]

end Reader

end ScopeTags.Source
