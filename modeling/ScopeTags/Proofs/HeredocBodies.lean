import Mathlib.Data.List.DropRight
import ScopeTags.Proofs.ReturnedReading
import ScopeTags.Proofs.TokenOrder

/-!
# Bodies of heredocs

A heredoc that is announced in a line waits until the line ends, and then its body is passed over.
Only a newline that is read as the end of a line does that.  A backslash at the end of a line does
not: the next line is read as code while the heredoc still waits, and its body is taken to start
after that.

## Key results

- `skipBodies_bodies`: the bodies that are passed over, line by line
- `Reader.heredocs_eq_of_step?`, `Reader.at_of_step?`: what one step does to waiting heredocs,
  and which steps lead to the start of a line
- `Reader.heredocs_visits`: the heredocs that wait are those announced since the last newline
- `transcribe_skips_bodies`: where heredocs wait at the start of a line, and that no token stands in
  a body that is passed over
-/

namespace ScopeTags.Source

/-! ## What a body is -/

/-- The first line of a text, without the carriage returns at its end. -/
def firstLine (cs : List Char) : List Char := Text.trimEnd (· = '\r') (cs.takeWhile (· ≠ '\n'))

/-- A text without its first line. -/
def laterLines (cs : List Char) : List Char := (cs.dropWhile (· ≠ '\n')).tail

/-- The text starts with the bodies of the heredocs, one after the other, and after them comes
    `rest`.  A body goes on to the first line that ends it, or to the end of the text. -/
inductive Bodies : List Heredoc → List Char → List Char → Prop where
  | none {rest : List Char} : Bodies [] rest rest
  | missing {h : Heredoc} {heredocs : List Heredoc} : Bodies (h :: heredocs) [] []
  | line {h : Heredoc} {heredocs : List Heredoc} {cs rest : List Char} (ne : cs ≠ [])
      (goes_on : h.endsAt (firstLine cs) = false)
      (later : Bodies (h :: heredocs) (laterLines cs) rest) : Bodies (h :: heredocs) cs rest
  | terminator {h : Heredoc} {heredocs : List Heredoc} {cs rest : List Char} (ne : cs ≠ [])
      (ends : h.endsAt (firstLine cs) = true) (later : Bodies heredocs (laterLines cs) rest) :
      Bodies (h :: heredocs) cs rest

/-- At the end of the text there is nothing after the bodies. -/
theorem Bodies.eq_nil {heredocs : List Heredoc} {rest : List Char} (h : Bodies heredocs [] rest) :
    rest = [] := by
  cases h with
  | none => rfl
  | missing => rfl
  | line ne goes_on later => exact absurd rfl ne
  | terminator ne ends later => exact absurd rfl ne

/-- Where the next line starts. -/
private theorem Cursor.rest_nextLine (k : Cursor) : k.nextLine.rest = laterLines k.rest := by
  rw [nextLine, laterLines]
  split
  · next h => rw [h]; rfl
  · next c rest h => rw [h]; rfl

/-- The lines that are passed over for one heredoc are its body. -/
private theorem Cursor.linesThrough_bodies {h : Heredoc} {heredocs : List Heredoc}
    {rest : List Char} (k : Cursor)
    (later : Bodies heredocs (k.linesThrough h.endsAt).2.rest rest) :
    Bodies (h :: heredocs) k.rest rest := by
  -- By induction on the lines: the text ends, the body does, or another line belongs to it.
  fun_induction linesThrough h.endsAt k with
  | case1 k hnil =>
    rw [hnil] at later ⊢
    rw [later.eq_nil]
    exact .missing
  | case2 k hne hends =>
    rw [rest_nextLine] at later
    exact .terminator hne hends later
  | case3 k hne hends ih =>
    have hlater := ih later
    rw [rest_nextLine] at hlater
    exact .line hne (Bool.eq_false_iff.mpr hends) hlater

/-- What is passed over are the bodies. -/
theorem skipBodies_bodies (heredocs : List Heredoc) (k : Cursor) :
    Bodies heredocs k.rest (skipBodies heredocs k).1.rest := by
  induction heredocs generalizing k with
  | nil => exact .none
  | cons h heredocs ih => exact k.linesThrough_bodies (ih _)

/-! ## Literals

A literal may go on over several lines, but it does not end at the start of one. -/

/-- Inside of a literal, or past the start of a line, the end is past the start of a line. -/
private theorem skipFrames_column {frames : List Frame} (h : Frame.Stacked frames) (p : Place)
    (cs : List Char) (hp : frames ≠ [] ∨ 0 < p.column) :
    (skipFrames frames p cs).1.rest = [] ∨ 0 < (skipFrames frames p cs).1.column := by
  -- By induction on the characters.  Something stays open at every newline, so that another
  -- character comes before the end.
  induction cs generalizing frames p with
  | nil => cases frames <;> exact .inl rfl
  | cons c cs ih =>
    cases frames with
    | nil => exact .inr (hp.resolve_left (not_not_intro rfl))
    | cons frame frames =>
      have hstacked : Frame.Stacked (frame.read p.line c cs.head? ++ frames) := by
        cases h with
        | lasting h => exact Frame.Lasts.read_stacked h _ _ _
        | single h => exact .lasting h
      apply ih hstacked
      by_cases hc : c = '\n'
      · -- No frame ends with a newline but a single character, which has one around it.
        left
        cases h with
        | lasting h =>
          rw [hc, (h frame List.mem_cons_self).read_newline]
          simp
        | single h => simp [Frame.read_single]
      · right
        rw [Place.past, if_neg hc]
        exact Nat.succ_pos _

namespace Reader

/-! ## Where a reader stands -/

/-- The line ends here. -/
def atNewline (r : Reader) : Bool := r.rest.head? = some '\n'

/-- The line ends after a backslash. -/
def atContinuation (r : Reader) : Bool := ['\\', '\n'].isPrefixOf r.rest

/-- An embedded document starts here. -/
def atDocument (r : Reader) : Bool := r.column = 0 ∧ startsDocument r.rest

/-- The heredoc that is announced here. -/
def announces? (r : Reader) : Option Heredoc :=
  match r.rest with
  | '<' :: '<' :: rest =>
    if r.valueExpected ∨ r.afterSpace then (Heredoc.opening? rest).map Prod.fst else none
  | _ => none

variable {r : Reader} {c : Char} {cs : List Char}

/-- Only a less-than sign announces a heredoc. -/
private theorem announces?_of_ne (hr : r.rest = c :: cs) (hc : c ≠ '<') : r.announces? = none := by
  unfold announces?
  split
  · next rest heq =>
    rw [hr] at heq
    exact absurd (List.cons.inj heq).1 hc
  · rfl

private theorem atNewline_of_ne (hr : r.rest = c :: cs) (hc : c ≠ '\n') : r.atNewline = false := by
  simp [atNewline, hr, hc]

/-! ## One step -/

/-- A reading that leaves the waiting heredocs alone, and that does not go to the start of another
    line unless the text ends there. -/
structure Keeps (r : Reader) (reading : Reading) : Prop where
  within : reading.2.line = r.line ∨ reading.2.rest = [] ∨ 0 < reading.2.column
  heredocs_eq : reading.2.heredocs = r.heredocs

private theorem skipValue_keeps (r : Reader) (n : Nat) : r.Keeps (r.skipValue n) := ⟨.inl rfl, rfl⟩

private theorem skipOperator_keeps (r : Reader) (n : Nat) :
    r.Keeps (r.skipOperator n) := ⟨.inl rfl, rfl⟩

private theorem skipDot_keeps (r : Reader) (n : Nat) : r.Keeps (r.skipDot n) := ⟨.inl rfl, rfl⟩

/-- A literal may go on over lines, but does not end at the start of one. -/
private theorem skipLiteral_keeps (r : Reader) (n : Nat) {frame : Nat → Frame}
    (hframe : ∀ line, (frame line).Lasts) : r.Keeps (r.skipLiteral n frame) := by
  have hstacked : Frame.Stacked [frame r.line] := .lasting (by simpa using hframe r.line)
  have hcolumn := skipFrames_column hstacked (r.toCursor.hop n).toPlace (r.toCursor.hop n).rest
    (.inl (List.cons_ne_nil _ _))
  exact ⟨.inr hcolumn, rfl⟩

/-- Flags behind a literal are on the line where it ends. -/
theorem Keeps.skipFlags {found : List Event} {next : Reader} (h : r.Keeps (found, next)) :
    r.Keeps (found, next.skipFlags) := by
  refine ⟨h.within.imp id (Or.imp (fun hnil => ?_) fun hcolumn => ?_), h.heredocs_eq⟩
  · rw [Reader.skipFlags, rest_hop, show next.rest = [] from hnil, List.drop_nil]
  · exact Nat.lt_of_lt_of_le hcolumn (Nat.le_add_right _ _)

/-- After a colon: two colons, a symbol in quotes, a word or an operator, or nothing of these. -/
private theorem readColon_keeps (r : Reader) (cs : List Char) : r.Keeps (r.readColon cs) := by
  unfold readColon
  split
  · exact r.skipOperator_keeps 1
  next c _ =>
  split
  · exact r.skipDot_keeps 2
  split
  · next hquote =>
    have hc : isQuote c = true := by rcases hquote with rfl | rfl <;> rfl
    exact r.skipLiteral_keeps 2 (Frame.string_lasts hc)
  split
  · exact r.skipValue_keeps _
  split
  · exact r.skipValue_keeps _
  · exact r.skipOperator_keeps 1

/-- A percent literal, or the operator. -/
private theorem readPercent_keeps (r : Reader) (cs : List Char) : r.Keeps (r.readPercent cs) := by
  unfold readPercent
  split
  · next type delim n hopening =>
    have hliteral := r.skipLiteral_keeps n (Frame.percent_lasts hopening)
    split
    · dsimp only
      split
      · exact hliteral.skipFlags
      · exact hliteral
    · exact r.skipOperator_keeps 1
  · exact r.skipOperator_keeps 1

/-- A regular expression with its flags, or the operator. -/
private theorem readSlash_keeps (r : Reader) (cs : List Char) : r.Keeps (r.readSlash cs) := by
  have hregex : ∀ line, (Frame.regex false line).Lasts := fun _ => trivial
  unfold readSlash
  split
  · exact (r.skipLiteral_keeps 1 hregex).skipFlags
  · exact r.skipOperator_keeps 1

/-- A character literal, or the operator. -/
private theorem readQuestionMark_keeps (r : Reader) (cs : List Char) :
    r.Keeps (r.readQuestionMark cs) := by
  unfold readQuestionMark
  split
  · split
    · exact r.skipValue_keeps _
    · exact r.skipOperator_keeps 1
  · exact r.skipOperator_keeps 1

/-- To close endless definitions does not touch heredocs. -/
theorem heredocs_closeEndless (r : Reader) : r.closeEndless.2.heredocs = r.heredocs := by
  unfold closeEndless
  split <;> rfl

/-- Closing endless definitions leaves the blocks. -/
private theorem blocks_closeEndless (r : Reader) : r.closeEndless.2.blocks = r.blocks := by
  unfold closeEndless
  split <;> rfl

/-- Brackets, semicolons, dots and other signs. -/
private theorem readSign_keeps (r : Reader) (c : Char) (cs : List Char) :
    r.Keeps (r.readSign c cs) := by
  have hsemicolon : r.Keeps r.readSemicolon := by
    obtain ⟨-, -, hline, -⟩ := (r.hop 1).closeEndless_effect
    exact ⟨.inl hline, (r.hop 1).heredocs_closeEndless⟩
  have hdot : r.Keeps (r.readDot cs) := by
    unfold readDot
    split <;> exact ⟨.inl rfl, rfl⟩
  unfold readSign
  split
  · exact ⟨.inl rfl, rfl⟩
  split
  · exact ⟨.inl rfl, rfl⟩
  split
  · exact hsemicolon
  split
  · exact hdot
  split
  · exact r.skipDot_keeps 2
  · exact r.skipOperator_keeps 1

/-- All punctuation but the less-than sign. -/
private theorem readPunctuation_keeps (r : Reader) (cs : List Char) (hc : c ≠ '<') :
    r.Keeps (r.readPunctuation c cs) := by
  have hvariable : r.Keeps (r.readVariable cs) := by
    unfold readVariable
    split <;> exact r.skipValue_keeps _
  unfold readPunctuation
  -- One case for each kind of punctuation, in the order in which they are tried.
  split
  · next hquote => exact r.skipLiteral_keeps 1 (Frame.string_lasts hquote)
  split
  · exact r.skipValue_keeps _
  split
  · exact r.readColon_keeps cs
  split
  · exact hvariable
  split
  · exact r.skipValue_keeps _
  split
  · exact r.readPercent_keeps cs
  split
  · exact r.readSlash_keeps cs
  split
  · exact r.readQuestionMark_keeps cs
  · exact r.readSign_keeps c cs

/-- A definition is on one line up to its name. -/
private theorem readDefinition_keeps (r : Reader) : r.Keeps r.readDefinition := by
  have hopen : ∀ (s : Reader) endless, (s.openDefinition endless).heredocs = s.heredocs := by
    intro s endless
    cases endless <;> rfl
  unfold readDefinition
  extract_lets head spaces receiver there n construct opened keyword
  have hline : opened.line = r.line := there.line_openDefinition _
  have hheredocs : opened.heredocs = r.heredocs := hopen there _
  clear_value opened keyword
  split
  · exact ⟨.inl hline, hheredocs⟩
  · exact ⟨.inl hline, hheredocs⟩

/-- A block that is opened does not touch heredocs. -/
private theorem heredocs_openBlockOf (r : Reader) (word : String) :
    (r.openBlockOf word).heredocs = r.heredocs := by
  have hopen : (r.openBlock word).heredocs = r.heredocs := by
    unfold openBlock
    dsimp only
    split <;> rfl
  unfold openBlockOf
  split
  · split
    · exact hopen
    · rfl
  split
  · exact hopen
  split
  · split <;> rfl
  · rfl

/-- A keyword of a block leaves the waiting heredocs alone and starts no line. -/
private theorem readOtherKeyword_keeps (r : Reader) (word : String) :
    r.Keeps (r.readOtherKeyword word) := by
  have hline : (r.openBlockOf word).line = r.line :=
    congrArg (·.line) (r.toCursor_openBlockOf word)
  have hheredocs := r.heredocs_openBlockOf word
  unfold readOtherKeyword
  dsimp only
  split
  · exact ⟨.inl hline, hheredocs⟩
  · exact ⟨.inl hline, hheredocs⟩

/-- Any keyword leaves the waiting heredocs alone and starts no line. -/
private theorem readKeyword_keeps (r : Reader) (word : String) : r.Keeps (r.readKeyword word) := by
  have hclass : r.Keeps r.readClass := by
    unfold readClass
    dsimp only
    split <;> exact ⟨.inl rfl, rfl⟩
  have hend : r.Keeps r.readEnd := by
    unfold readEnd
    dsimp only
    split <;> exact ⟨.inl rfl, rfl⟩
  unfold readKeyword
  split
  · exact r.readDefinition_keeps
  split
  · exact ⟨.inl rfl, rfl⟩
  split
  · exact hclass
  split
  · exact hend
  · exact r.readOtherKeyword_keeps word

/-- Any word leaves the waiting heredocs alone and starts no line. -/
private theorem readWord_keeps (r : Reader) : r.Keeps r.readWord := by
  have hconstant : ∀ n, r.Keeps (r.takeConstant n) := fun _ => ⟨.inl rfl, rfl⟩
  have hidentifier : ∀ n, r.Keeps (r.takeIdentifier n) := fun _ => ⟨.inl rfl, rfl⟩
  unfold readWord
  dsimp only
  split
  · split
    · exact hconstant _
    · exact hidentifier _
  split
  · exact ⟨.inl rfl, rfl⟩
  split
  · exact r.readKeyword_keeps _
  split
  · exact hconstant _
  · exact hidentifier _

/-- A less-than sign is read without a change of line, even where it announces a heredoc. -/
private theorem readLessThan_line (r : Reader) (cs : List Char) :
    (r.readLessThan cs).2.line = r.line := by
  unfold readLessThan
  repeat' split
  all_goals rfl

/-- A heredoc is announced by two less-than signs. -/
private theorem heredocs_readLessThan (hr : r.rest = '<' :: cs) :
    (r.readLessThan cs).2.heredocs = r.heredocs ++ r.announces?.toList := by
  rw [announces?, hr]
  unfold readLessThan
  split
  · next rest =>
    cases hopening : Heredoc.opening? rest with
    | none =>
      simp only [hopening, Option.map_none, ite_self, Option.toList_none, List.append_nil]
      rfl
    | some found =>
      obtain ⟨heredoc, n⟩ := found
      -- After a value, and with no space in front, two less-than signs are an operator.
      by_cases hmay : r.valueExpected = true ∨ r.afterSpace = true
      · simp only [hopening, if_pos hmay, Option.map_some, Option.toList_some]
      · simp only [if_neg hmay, Option.toList_none, List.append_nil]
        rfl
  · next hnone =>
    split
    · next rest heq => exact absurd (List.cons.inj heq).2 (hnone rest)
    · exact (List.append_nil _).symm

/-- Apart from newlines, backslashes before them and less-than signs. -/
private theorem read_keeps (r : Reader) (hnewline : c ≠ '\n') (hless : c ≠ '<')
    (hbackslash : ¬(c = '\\' ∧ cs.head? = some '\n')) : r.Keeps (r.read c cs) := by
  rw [read, if_neg hnewline]
  split
  · exact ⟨.inl rfl, rfl⟩
  split
  · exact ⟨.inl rfl, rfl⟩
  split
  · exact r.readWord_keeps
  · exact r.readPunctuation_keeps cs hless

/-- What is read at a less-than sign. -/
private theorem read_lessThan (r : Reader) (cs : List Char) :
    r.read '<' cs = r.readLessThan cs := by
  have hgap : isGap '<' = false := by decide
  have hword : isWordStart '<' = false := by decide
  simp [read, hgap, hword, readPunctuation, isQuote]

/-- A backslash at the end of a line goes on to the next one. -/
private theorem read_backslash (r : Reader) (h : cs.head? = some '\n') :
    r.read '\\' cs = ([], r.moveTo (r.toCursor.hop 1).nextLine) := by
  have hgap : isGap '\\' = false := by decide
  simp [read, hgap, h]

/-- A step passes over an embedded document or reads from the next character on. -/
private theorem step?_cases {reading : Reading} (h : r.step? = some reading) :
    (r.atDocument = true ∧
      reading = ((skipDocument r.toCursor).2, r.moveTo (skipDocument r.toCursor).1)) ∨
    ∃ c cs, r.rest = c :: cs ∧ reading = r.read c cs := by
  unfold step? at h
  split at h
  · cases h
  · next c cs hr =>
    split at h
    · cases h
    split at h
    · next hdocument =>
      rw [← hr] at hdocument
      exact .inl ⟨decide_eq_true hdocument, (Option.some.inj h).symm⟩
    · exact .inr ⟨c, cs, hr, (Option.some.inj h).symm⟩

/-- An embedded document starts with an equals sign. -/
private theorem exists_of_atDocument (h : r.atDocument = true) : ∃ cs, r.rest = '=' :: cs := by
  have hstarts := (of_decide_eq_true h).2
  simp only [startsDocument, Bool.and_eq_true, List.isPrefixOf_iff_prefix] at hstarts
  obtain ⟨cs, hcs⟩ := hstarts.1
  exact ⟨_, hcs.symm⟩

/-- What a step does to the heredocs that wait. -/
theorem heredocs_eq_of_step? {found : List Event} {next : Reader}
    (h : r.step? = some (found, next)) :
    next.heredocs = if r.atNewline then [] else r.heredocs ++ r.announces?.toList := by
  rcases step?_cases h with ⟨hdocument, hreading⟩ | ⟨c, cs, hr, hreading⟩
  · obtain ⟨cs, hr⟩ := exists_of_atDocument hdocument
    cases hreading
    simp [atNewline_of_ne hr (by decide), announces?_of_ne hr (by decide), moveTo]
  · -- A newline takes all heredocs away, a less-than sign may add one, and all else leaves them.
    by_cases hnewline : c = '\n'
    · subst hnewline
      have hat : r.atNewline = true := by simp [atNewline, hr]
      rw [if_pos hat, show next = r.readNewline.2 from congrArg Prod.snd hreading]
      exact heredocs_closeEndless _
    rw [if_neg (by simp [atNewline_of_ne hr hnewline])]
    by_cases hless : c = '<'
    · subst hless
      rw [r.read_lessThan cs] at hreading
      rw [← heredocs_readLessThan hr, ← hreading]
    rw [announces?_of_ne hr hless, Option.toList_none, List.append_nil]
    by_cases hbackslash : c = '\\' ∧ cs.head? = some '\n'
    · obtain ⟨rfl, hcs⟩ := hbackslash
      rw [r.read_backslash hcs] at hreading
      cases hreading
      rfl
    · have hkeeps := r.read_keeps hnewline hless hbackslash
      rw [← hreading] at hkeeps
      exact hkeeps.heredocs_eq

/-- The steps that lead to the start of a line. -/
theorem at_of_step? {found : List Event} {next : Reader} (h : r.step? = some (found, next))
    (hcolumn : next.column = 0) (hrest : next.rest ≠ []) :
    r.atNewline = true ∨ r.atContinuation = true ∨ r.atDocument = true := by
  -- On the same line, a step goes on by at least one column.
  have hline : next.line ≠ r.line := by
    intro hline
    have htracks := step?_tracks h
    have heq : next.column + r.before.length = r.column + next.before.length :=
      htracks.reaches.column_eq hline
    have htext : (next.before.reverse ++ next.rest).length = (r.before.reverse ++ r.rest).length :=
      congrArg List.length htracks.text_eq
    have hshorter : next.rest.length < r.rest.length := step?_shorter h
    simp only [List.length_append, List.length_reverse] at htext
    omega
  -- Of what is read from a character on, a newline and a backslash before one change the line in
  -- this way.  A literal does not.
  rcases step?_cases h with ⟨hdocument, -⟩ | ⟨c, cs, hr, hreading⟩
  · exact .inr (.inr hdocument)
  · by_cases hnewline : c = '\n'
    · exact .inl (by simp [atNewline, hr, hnewline])
    by_cases hless : c = '<'
    · subst hless
      have hsame := r.readLessThan_line cs
      rw [← r.read_lessThan cs, ← hreading] at hsame
      exact absurd hsame hline
    by_cases hbackslash : c = '\\' ∧ cs.head? = some '\n'
    · obtain ⟨rfl, hcs⟩ := hbackslash
      obtain ⟨rest, rfl⟩ := List.head?_eq_some_iff.mp hcs
      exact .inr (.inl (by simp [atContinuation, hr]))
    · have hkeeps := r.read_keeps hnewline hless hbackslash
      rw [← hreading] at hkeeps
      rcases hkeeps.within with hsame | hnil | hpos
      · exact absurd hsame hline
      · exact absurd hnil hrest
      · exact absurd hcolumn (Nat.ne_of_gt hpos)

/-- A backslash and an embedded document leave the heredocs waiting. -/
private theorem heredocs_eq_of_kept {found : List Event} {next : Reader}
    (h : r.step? = some (found, next)) (hat : r.atContinuation = true ∨ r.atDocument = true) :
    next.heredocs = r.heredocs := by
  obtain ⟨c, cs, hr, hnewline, hless⟩ : ∃ c cs, r.rest = c :: cs ∧ c ≠ '\n' ∧ c ≠ '<' := by
    rcases hat with hat | hat
    · obtain ⟨cs, hcs⟩ := List.isPrefixOf_iff_prefix.mp hat
      exact ⟨_, _, hcs.symm, by decide, by decide⟩
    · obtain ⟨cs, hcs⟩ := exists_of_atDocument hat
      exact ⟨_, _, hcs, by decide, by decide⟩
  simp [heredocs_eq_of_step? h, atNewline_of_ne hr hnewline, announces?_of_ne hr hless]

/-- The end of a line is read together with the bodies of all heredocs that wait. -/
theorem step?_of_atNewline {found : List Event} {next : Reader}
    (h : r.step? = some (found, next)) (hat : r.atNewline = true) :
    found.filterMap Event.located? = [] ∧ next.heredocs = [] ∧ next.blocks = r.blocks ∧
      Bodies r.heredocs (r.rest.drop 1) next.rest := by
  obtain ⟨cs, hr⟩ := List.head?_eq_some_iff.mp (of_decide_eq_true hat)
  rw [step?_newline hr] at h
  obtain ⟨rfl, rfl⟩ := Prod.mk.inj (Option.some.inj h)
  have hlater : r.nextLine.rest = cs := by
    rw [Cursor.rest_nextLine, hr]
    simp [laterLines]
  refine ⟨?_, heredocs_closeEndless _, blocks_closeEndless _, ?_⟩
  · -- Only ends of endless definitions come up, and those stand nowhere.
    obtain ⟨n, hends, -⟩ := closeEndless_endsOnly
      { r.moveTo (skipBodies r.heredocs r.nextLine).1 with heredocs := [] }
    have hreports := endsOnly_of_reports (isReport_skipBodies r.heredocs r.nextLine)
    exact (hreports.append hends).filterMap_located?
  · -- Closing them does not move the reader, so the bodies are all that was read.
    have hbodies := skipBodies_bodies r.heredocs r.nextLine
    rw [hlater] at hbodies
    rw [hr]
    exact (rest_closeEndless _).symm ▸ hbodies

/-! ## All of a text -/

/-- The readers at the pieces of the text, from this one to the one where reading ends. -/
def visits (r : Reader) : List Reader :=
  match _h : r.step? with
  | none => [r]
  | some (_, next) => r :: next.visits
termination_by r.rest.length
decreasing_by exact step?_shorter _h

/-- Reading ends at the only reader. -/
private theorem visits_of_none (h : r.step? = none) : r.visits = [r] := by
  rw [visits]
  split
  · rfl
  · next hs => rw [h] at hs; cases hs

/-- The readers after a step come behind the first one. -/
theorem visits_of_step? {found : List Event} {next : Reader} (h : r.step? = some (found, next)) :
    r.visits = r :: next.visits := by
  rw [visits]
  split
  · next hs => rw [h] at hs; cases hs
  · next hs =>
    rw [h] at hs
    cases hs
    rfl

/-- The first reader. -/
theorem getElem?_visits_zero (r : Reader) : r.visits[0]? = some r := by
  cases h : r.step? with
  | none => rw [visits_of_none h]; rfl
  | some reading =>
    obtain ⟨found, next⟩ := reading
    rw [visits_of_step? h]
    rfl

/-- All but the first reader of a text are there after one step. -/
private theorem exists_step?_of_visits {i : Nat} {next : Reader}
    (h : r.visits[i + 1]? = some next) :
    ∃ found s, r.step? = some (found, s) ∧ s.visits[i]? = some next := by
  cases hstep : r.step? with
  | none =>
    rw [visits_of_none hstep] at h
    cases h
  | some reading =>
    obtain ⟨found, s⟩ := reading
    rw [visits_of_step? hstep] at h
    exact ⟨found, s, rfl, h⟩

/-- One reader follows another by a step. -/
private theorem step?_of_visits {i : Nat} {s next : Reader} (hs : r.visits[i]? = some s)
    (hnext : r.visits[i + 1]? = some next) : ∃ found, s.step? = some (found, next) := by
  induction i generalizing r with
  | zero =>
    obtain ⟨found, t, hstep, ht⟩ := exists_step?_of_visits hnext
    rw [getElem?_visits_zero] at hs ht
    cases hs
    cases ht
    exact ⟨found, hstep⟩
  | succ i ih =>
    obtain ⟨found, t, hstep, ht⟩ := exists_step?_of_visits hnext
    rw [visits_of_step? hstep] at hs
    exact ih hs ht

/-- Every reader but the first comes after another one. -/
private theorem exists_visits_of_succ {i : Nat} {next : Reader} (h : r.visits[i + 1]? = some next) :
    ∃ s found, r.visits[i]? = some s ∧ s.step? = some (found, next) := by
  have hlt : i < r.visits.length := by
    have := (List.getElem?_eq_some_iff.mp h).1
    omega
  obtain ⟨s, hs⟩ : ∃ s, r.visits[i]? = some s := ⟨_, List.getElem?_eq_getElem hlt⟩
  obtain ⟨found, hstep⟩ := step?_of_visits hs h
  exact ⟨s, found, hs, hstep⟩

/-- After a step comes the next reader. -/
theorem getElem?_visits_succ {i : Nat} {s next : Reader} {found : List Event}
    (hs : r.visits[i]? = some s) (h : s.step? = some (found, next)) :
    r.visits[i + 1]? = some next := by
  induction i generalizing r with
  | zero =>
    rw [getElem?_visits_zero] at hs
    cases hs
    rw [visits_of_step? h]
    exact next.getElem?_visits_zero
  | succ i ih =>
    obtain ⟨found', t, hstep, ht⟩ := exists_step?_of_visits hs
    rw [visits_of_step? hstep]
    exact ih ht

/-- From any reader on, the readers are its own. -/
private theorem drop_visits {i : Nat} {s : Reader} (h : r.visits[i]? = some s) :
    r.visits.drop i = s.visits := by
  induction i generalizing r with
  | zero =>
    rw [getElem?_visits_zero] at h
    cases h
    rfl
  | succ i ih =>
    obtain ⟨found, next, hstep, hnext⟩ := exists_step?_of_visits h
    rw [visits_of_step? hstep, List.drop_succ_cons]
    exact ih hnext

/-- The readers of a reader that comes up are found further on. -/
theorem getElem?_visits_add {i j : Nat} {s w : Reader} (hs : r.visits[i]? = some s)
    (hw : s.visits[j]? = some w) : r.visits[i + j]? = some w := by
  rw [← List.getElem?_drop, drop_visits hs]
  exact hw

/-- What a reader in the text brings up comes last, and where text is left there is no report before
    it. -/
theorem exists_events_of_visits {i : Nat} {s : Reader} (h : r.visits[i]? = some s) :
    ∃ before, r.events = before ++ s.events ∧
      (s.rest ≠ [] → before.any Event.isReport = false) := by
  induction i generalizing r with
  | zero =>
    rw [getElem?_visits_zero] at h
    cases h
    exact ⟨[], rfl, fun _ => rfl⟩
  | succ i ih =>
    obtain ⟨found, next, hstep, hnext⟩ := exists_step?_of_visits h
    obtain ⟨before, hevents, hsilent⟩ := ih hnext
    refine ⟨found ++ before, by rw [events_of_step? hstep, hevents, List.append_assoc], ?_⟩
    intro hrest
    rw [List.any_append, hsilent hrest, Bool.or_false]
    cases step?_reportsLast hstep with
    | silent hnone => exact hnone
    | last hnil _ _ =>
      -- After a report there is no further step, and no text is left there.
      have hstop : next.step? = none := by rw [step?, show next.rest = [] from hnil]
      rw [visits_of_none hstop] at hnext
      obtain rfl : next = s := by
        cases i with
        | zero => exact Option.some.inj hnext
        | succ i => cases hnext
      exact absurd hnil hrest

/-- All readers of a text are in that text, and they go on in it. -/
theorem visits_tracks {i : Nat} {s : Reader} (h : r.visits[i]? = some s) :
    s.text = r.text ∧ r.Reaches s.toPlace := by
  induction i generalizing s with
  | zero =>
    rw [getElem?_visits_zero] at h
    cases h
    exact ⟨rfl, .refl _⟩
  | succ i ih =>
    obtain ⟨p, found, hp, hstep⟩ := exists_visits_of_succ h
    obtain ⟨htext, hreaches⟩ := ih hp
    have htracks := step?_tracks hstep
    exact ⟨htracks.text_eq.trans htext, hreaches.trans htracks.reaches⟩

/-- The heredocs that wait are those that were announced since the last newline. -/
theorem heredocs_visits (hr : r.heredocs = []) {i : Nat} {s : Reader}
    (h : r.visits[i]? = some s) :
    s.heredocs =
      ((r.visits.take i).rtakeWhile (!atNewline ·)).filterMap announces? := by
  induction i generalizing s with
  | zero =>
    rw [getElem?_visits_zero] at h
    cases h
    exact hr
  | succ i ih =>
    obtain ⟨p, found, hp, hstep⟩ := exists_visits_of_succ h
    have htake : r.visits.take (i + 1) = r.visits.take i ++ [p] := by
      rw [List.take_add_one, hp]
      rfl
    rw [htake, heredocs_eq_of_step? hstep]
    -- A newline starts the count again, and any other step adds what it announces.
    by_cases hat : p.atNewline = true
    · rw [List.rtakeWhile_concat_neg _ _ _ (by simp [hat]), if_pos hat]
      rfl
    · rw [List.rtakeWhile_concat_pos _ _ _ (by simp [hat]), if_neg hat, List.filterMap_append,
        ← ih hp]
      cases ha : p.announces? <;> simp [ha]

/-- A line before the `i`-th reader goes on after a backslash while a heredoc waits, and from there
    only embedded documents come in between. -/
def CarriesOver (visits : List Reader) (i : Nat) : Prop :=
  ∃ m c, m < i ∧ visits[m]? = some c ∧ c.atContinuation = true ∧ c.heredocs ≠ [] ∧
    ∀ k d, m < k → k < i → visits[k]? = some d → d.atDocument = true

/-- Where heredocs wait at the start of a line. -/
private theorem heredocs_ne_nil_iff (hr : r.heredocs = []) {i : Nat} {s : Reader}
    (h : r.visits[i]? = some s) (hcolumn : s.column = 0) (hrest : s.rest ≠ []) :
    s.heredocs ≠ [] ↔ CarriesOver r.visits i := by
  -- By induction on the readers, back over embedded documents to the step that led to this line.
  induction i generalizing s with
  | zero =>
    rw [getElem?_visits_zero] at h
    cases h
    constructor
    · exact fun hne => absurd hr hne
    · rintro ⟨m, c, hlt, -⟩
      omega
  | succ i ih =>
    obtain ⟨p, found, hp, hstep⟩ := exists_visits_of_succ h
    -- An embedded document starts at the start of a line itself.
    have hdocument : p.atDocument = true → (p.heredocs ≠ [] ↔ CarriesOver r.visits i) := by
      intro hat
      obtain ⟨cs, hcs⟩ := exists_of_atDocument hat
      exact ih hp (of_decide_eq_true hat).1 (by simp [hcs])
    constructor
    · intro hne
      -- After a newline nothing waits.  After a backslash the line is found.  Over a document go
      -- back.
      rcases at_of_step? hstep hcolumn hrest with hat | hat | hat
      · exact absurd (step?_of_atNewline hstep hat).2.1 hne
      · rw [heredocs_eq_of_kept hstep (.inl hat)] at hne
        exact ⟨i, p, by omega, hp, hat, hne, fun k d hk hk' => by omega⟩
      · rw [heredocs_eq_of_kept hstep (.inr hat)] at hne
        obtain ⟨m, c, hlt, hc, hcat, hcne, hbetween⟩ := (hdocument hat).mp hne
        refine ⟨m, c, by omega, hc, hcat, hcne, fun k d hk hk' hd => ?_⟩
        by_cases hki : k = i
        · rw [hki, hp] at hd
          cases hd
          exact hat
        · exact hbetween k d hk (by omega) hd
    · rintro ⟨m, c, hlt, hc, hcat, hcne, hbetween⟩
      by_cases hmi : m = i
      · rw [hmi, hp] at hc
        cases hc
        rw [heredocs_eq_of_kept hstep (.inl hcat)]
        exact hcne
      · have hat := hbetween i p (by omega) (by omega) hp
        rw [heredocs_eq_of_kept hstep (.inr hat)]
        exact (hdocument hat).mpr
          ⟨m, c, by omega, hc, hcat, hcne, fun k d hk hk' => hbetween k d hk (by omega)⟩

/-- A token in the text has been read when a line ends, or it comes after the bodies. -/
private theorem marks_outside {i m : Nat} {s next : Reader} (hr : 0 < r.line)
    (hs : r.visits[i]? = some s) (hnext : r.visits[i + 1]? = some next) (hat : s.atNewline = true) :
    ∀ mark ∈ r.marks m, mark.Between r.toPlace s.toPlace ∨ next.Reaches mark.cursor.toPlace := by
  -- By induction on the steps up to the newline.
  fun_induction marks m r generalizing i with
  | case1 m r hstep => simp
  | case2 m r found t hstep ih =>
    have hreaches : r.Reaches t.toPlace := (step?_tracks hstep).reaches
    have ht : 0 < t.line := Nat.lt_of_lt_of_le hr hreaches.line_le
    rw [visits_of_step? hstep] at hs hnext
    intro mark hmark
    cases i with
    | zero =>
      -- The line ends right here, which brings up no token in the text.
      obtain rfl : r = s := Option.some.inj hs
      obtain rfl : t = next := Option.some.inj (t.getElem?_visits_zero.symm.trans hnext)
      rw [(step?_of_atNewline hstep hat).1, List.zipWith_nil_left, List.nil_append] at hmark
      exact .inr ((marks_ordered _ t ht).1 mark hmark)
    | succ i =>
      rcases List.mem_append.mp hmark with hmark | hmark
      · have hbetween := ((step?_brings hstep).between hr hreaches m).1 mark hmark
        have hlater := (visits_tracks hs).2
        exact .inl ⟨hbetween.after, hbetween.reaches.trans hlater,
          Nat.le_trans hbetween.ends hlater.length_le⟩
      · refine (ih ht hs hnext mark hmark).imp (fun hbetween => ?_) id
        exact ⟨hreaches.trans hbetween.after, hbetween.reaches, hbetween.ends⟩

end Reader

/-! ## Transcripts -/

/-- Heredocs and their bodies in a source.  The heredocs that wait at any point are those that were
    announced since the last newline that was read as the end of a line.  Such a newline is read
    together with the bodies of all of them, which leaves no heredoc waiting and the open blocks as
    they are, and no token in the text stands in these bodies.  At the start of a line a heredoc
    waits just when the line before goes on after a backslash and a heredoc waits there, embedded
    documents between the two lines apart. -/
theorem transcribe_skips_bodies (strict : Bool) (file : Option String) (source : String) :
    let start : Reader := Reader.start source.toList
    let transcript : Transcript := transcribe strict file source
    ∃ placed : List (Token × Nat),
      placed.map Prod.fst = transcript.tokens.filter (·.location.line ≠ 0) ∧
      (∀ x ∈ placed, x.1.SliceAt source.toList x.2) ∧
      ∀ i r, start.visits[i]? = some r →
        r.text = source.toList ∧
        r.heredocs = ((start.visits.take i).rtakeWhile (!Reader.atNewline ·)).filterMap
          Reader.announces? ∧
        (r.column = 0 → r.rest ≠ [] →
          (r.heredocs ≠ [] ↔ Reader.CarriesOver start.visits i)) ∧
        (r.atNewline = true →
          ∃ next, start.visits[i + 1]? = some next ∧
            Bodies r.heredocs (r.rest.drop 1) next.rest ∧ next.heredocs = [] ∧
            next.blocks = r.blocks ∧
            ∀ x ∈ placed,
              x.2 + x.1.text.length ≤ r.before.length ∨ next.before.length ≤ x.2) := by
  intro start transcript
  have hcounts : start.Counts 0 := Reader.start_counts source.toList
  obtain ⟨-, hsound⟩ := start.marks_spec hcounts fun h => absurd rfl h
  -- The tokens are placed where their marks are, and no mark lies in what a newline takes along.
  refine ⟨(start.marks 0).map fun mark => (mark.token.inFile file, mark.offset), ?_, ?_, ?_⟩
  · rw [List.map_map]
    exact (filter_tokens_transcribe strict file source).symm
  · intro x hx
    obtain ⟨mark, hmark, rfl⟩ := List.mem_map.mp hx
    exact (hsound mark hmark).sliceAt file
  · intro i r hi
    refine ⟨(Reader.visits_tracks hi).1, Reader.heredocs_visits rfl hi,
      Reader.heredocs_ne_nil_iff rfl hi, fun hat => ?_⟩
    obtain ⟨cs, hr⟩ := List.head?_eq_some_iff.mp (of_decide_eq_true hat)
    have hstep := Reader.step?_newline hr
    have hnext := Reader.getElem?_visits_succ hi hstep
    obtain ⟨-, hheredocs, hblocks, hbodies⟩ := Reader.step?_of_atNewline hstep hat
    refine ⟨r.readNewline.2, hnext, hbodies, hheredocs, hblocks, fun x hx => ?_⟩
    obtain ⟨mark, hmark, rfl⟩ := List.mem_map.mp hx
    rcases Reader.marks_outside hcounts.line_pos hi hnext hat mark hmark with hbetween | hreaches
    · exact .inl hbetween.ends
    · exact .inr hreaches.length_le

/-- Two heredocs wait where the line ends.  Their bodies are passed over, and none waits where the
    next line of code starts. -/
theorem transcribe_skips_bodies_two :
    let source := "f(<<A, <<~B)\nend\nA\n  end\n  B\nx\n"
    let start : Reader := Reader.start source.toList
    ∃ r next, start.visits[7]? = some r ∧ r.heredocs = [⟨['A'], false⟩, ⟨['B'], true⟩] ∧
      start.visits[8]? = some next ∧ next.rest = ['x', '\n'] ∧
      Bodies r.heredocs (r.rest.drop 1) next.rest ∧ ¬Reader.CarriesOver start.visits 8 := by
  intro source start
  have hsource : start.visits[7]?.any (fun r => r.atNewline ∧
        r.heredocs = [⟨['A'], false⟩, ⟨['B'], true⟩]) = true ∧
      start.visits[8]?.any (fun next => next.rest = ['x', '\n'] ∧ next.column = 0) = true := by
    decide +kernel
  obtain ⟨r, hr, hline⟩ := (Option.any_eq_true _ _).mp hsource.1
  obtain ⟨hat, hheredocs⟩ := of_decide_eq_true hline
  obtain ⟨placed, -, -, hvisits⟩ := transcribe_skips_bodies true none source
  obtain ⟨-, -, -, hnewline⟩ := hvisits 7 r hr
  obtain ⟨next, hnext, hbodies, hnone, -⟩ := hnewline hat
  have hthere := hsource.2
  rw [show start.visits[8]? = some next from hnext] at hthere
  obtain ⟨hrest, hcolumn⟩ := of_decide_eq_true hthere
  obtain ⟨-, -, hwaits, -⟩ := hvisits 8 next hnext
  refine ⟨r, next, hr, hheredocs, hnext, hrest, hbodies, fun hcarries => ?_⟩
  exact (hwaits hcolumn (by simp [hrest])).mpr hcarries hnone

/-- The line after a backslash is read as code, and the body is taken to start after it. -/
theorem heredoc_waits_after_backslash :
    let source := "x = <<A \\\nbody\nA\n"
    let start : Reader := Reader.start source.toList
    (start.visits.any fun r => r.column = 0 && r.rest ≠ [] && r.heredocs ≠ []) = true ∧
      (transcribe true none source).tokens =
        [Token.identifier "x" ⟨1, 1, none⟩, Token.identifier "body" ⟨2, 1, none⟩] := by
  decide +kernel

end ScopeTags.Source
