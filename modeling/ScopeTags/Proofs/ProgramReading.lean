import Mathlib.Data.List.TakeWhile
import ScopeTags.Proofs.LineReading

/-!
# Reading programs

A program that is written out is read back as its tokens.  The induction is on the program, and
what carries it is that a list of items leaves the reader where it found it: at the start of a line,
with the same blocks open and an operand expected.

## Key results

- `Header.passes`: a header opens the block of its kind and no other.
- `Statement.reads`: a statement takes its literal along and opens no block.
- `Program.reads`: a program brings up its tokens and leaves the blocks as they are.
- `Program.transcribe_text`: the transcript of a whole program.
-/

namespace ScopeTags.Source

/-! ## Headers -/

/-- Whether a method is one of the class depends on the innermost body. -/
private theorem singletonIn_cons (b : Block) (blocks : List Block) :
    singletonIn (b :: blocks) = b.singletonInside (singletonIn blocks) := by
  cases b <;> rfl

/-- A header opens the block of its kind, and the reader is at the end of its line. -/
theorem Header.passes (h : Header) (line column : Nat) (blocks : List Block) (cs : List Char) :
    ∃ m : Mode, m.blocks = h.block :: blocks ∧ m.heredocs = [] ∧
      Passes line column { blocks } (Piece.textOf (h.pieces (singletonIn blocks)))
        (Piece.tokensOf line column (h.pieces (singletonIn blocks))) m ('\n' :: cs) := by
  have hspace : ∀ u rest, ' ' :: u = '<' :: rest → Heredoc.opening? rest = none := by
    intro u rest hrest
    cases hrest
  -- The second sign of two is followed by a space, where no terminator can stand.
  have hshift : ∀ u rest, '<' :: ' ' :: u = '<' :: rest → Heredoc.opening? rest = none := by
    intro u rest hrest
    cases hrest
    rfl
  cases h with
  | asking keyword x =>
    obtain ⟨w, hw⟩ := keyword
    have hasking : ∀ w ∈ ["if", "unless", "while", "until", "case"], w ∈ plainKeywords := by
      decide
    -- At the start of a line an operand is expected, so each of them opens a block.
    refine ⟨_, ?_, ?_, .cons (passes_keyword (hasking w hw) rfl rfl) <| .cons (passes_space rfl) <|
      .last (passes_variable x rfl)⟩
    all_goals
      simp only [List.mem_cons, List.not_mem_nil, or_false] at hw
      rcases hw with rfl | rfl | rfl | rfl | rfl <;> rfl
  | whileDo x =>
    -- The `do` belongs to the loop and opens no second block.
    exact ⟨_, rfl, rfl, .cons (passes_keyword (by decide) rfl rfl) <| .cons (passes_space rfl) <|
      .cons (passes_variable x rfl) <| .cons (passes_space rfl) <|
      .last (passes_keyword (by decide) rfl rfl)⟩
  | forIn i x =>
    exact ⟨_, rfl, rfl, .cons (passes_keyword (by decide) rfl rfl) <| .cons (passes_space rfl) <|
      .cons (passes_variable i rfl) <| .cons (passes_space rfl) <|
      .cons (passes_keyword (by decide) rfl rfl) <| .cons (passes_space rfl) <|
      .last (passes_variable x rfl)⟩
  | beginBlock => exact ⟨_, rfl, rfl, .last (passes_keyword (by decide) rfl rfl)⟩
  | eachDo x i =>
    -- After the dot also a keyword would be a name.
    exact ⟨_, rfl, rfl, .cons (passes_variable x rfl) <| .cons (passes_dot (by decide)) <|
      .cons (passes_identifier (by decide) (Or.inl rfl) rfl) <| .cons (passes_space rfl) <|
      .cons (passes_keyword (by decide) rfl rfl) <|
      .cons ((passes_space rfl).append (passes_operator (Or.inl rfl))) <|
      .cons (passes_variable i rfl) <| .last (passes_operator (Or.inl rfl))⟩
  | singletonClass =>
    exact ⟨_, rfl, rfl, .cons (passes_singletonClass rfl) <|
      .cons ((passes_space rfl).append <| (passes_lessThan (hshift _)).append <|
        (passes_lessThan (hspace _)).append <| passes_space rfl) <|
      .last (passes_keyword (by decide) rfl rfl)⟩
  | moduleDef name =>
    exact ⟨_, rfl, rfl, .cons (passes_module rfl rfl) <| .cons (passes_space rfl) <|
      .last (passes_constant name rfl rfl)⟩
  | classDef name =>
    exact ⟨_, rfl, rfl, .cons (passes_class rfl (name.head?_text _ _)) <|
      .cons (passes_space rfl) <| .last (passes_constant name rfl rfl)⟩
  | subclassDef name parent =>
    exact ⟨_, rfl, rfl, .cons (passes_class rfl (name.head?_text _ _)) <|
      .cons (passes_space rfl) <| .cons (passes_constant name rfl rfl) <|
      .cons ((passes_space rfl).append <| (passes_lessThan (hspace _)).append <|
        passes_space rfl) <|
      .last (passes_constant parent rfl rfl)⟩
  | method name =>
    have htext : Piece.textOf ((Header.method name).pieces (singletonIn blocks)) =
        "def".toList ++ ([' '] ++ name.text) := by
      simp [Piece.textOf, Header.pieces, Piece.opening, Piece.silent, Piece.identifier]
    rw [htext]
    exact ⟨_, rfl, rfl, passes_definition name cs [] rfl (spacesLength_text name cs)
      (receiverLength_text name cs) (by simp)⟩
  | selfMethod name =>
    have htext : Piece.textOf ((Header.selfMethod name).pieces (singletonIn blocks)) =
        "def".toList ++ (" self.".toList ++ name.text) := by
      simp [Piece.textOf, Header.pieces, Piece.opening, Piece.silent, Piece.identifier]
    rw [htext]
    exact ⟨_, rfl, rfl, passes_definition name cs "self.".toList rfl rfl rfl (by simp)⟩

/-! ## Strings -/

/-- A text without quotes, backslashes and interpolations is passed over to the closing quote. -/
private theorem skipFrames_string {body : List Char} (hbody : isQuotable body = true) (start : Nat)
    (p : Place) (next : List Char) :
    ∃ before column, skipFrames [Frame.string '"' start] p (body ++ '"' :: next) =
      ({ before, line := p.line + body.count '\n', column, rest := next }, []) := by
  induction body generalizing p with
  | nil =>
    refine ⟨'"' :: p.before, p.column + 1, ?_⟩
    simp [skipFrames, Frame.string, Frame.read, Place.past]
  | cons c body ih =>
    simp only [isQuotable, Bool.and_eq_true, decide_eq_true_eq, Bool.not_eq_true'] at hbody
    obtain ⟨⟨⟨hquote, hescape⟩, hhash⟩, hrest⟩ := hbody
    -- Whatever the character is, the string goes on after it.
    have hread : (Frame.string '"' start).read p.line c (body ++ '"' :: next).head? =
        [Frame.string '"' start] := by
      have hcode : ¬(c = '#' ∧ (body ++ '"' :: next).head? = some '\x7b') := by
        rintro ⟨rfl, hhead⟩
        cases body with
        | nil => cases hhead
        | cons d body => simp_all
      generalize (body ++ '"' :: next).head? = head at hcode ⊢
      simpa [Frame.string, Frame.read, hquote, hescape] using fun _ hc hh => hcode ⟨hc, hh⟩
    obtain ⟨before, column, ih⟩ := ih hrest (p.past c)
    refine ⟨before, column, ?_⟩
    rw [List.cons_append, skipFrames, hread, List.singleton_append, ih, List.count_cons]
    by_cases hc : c = '\n'
    · simp [Place.past, hc, Nat.add_comm, Nat.add_left_comm]
    · simp [Place.past, hc]

/-! ## Heredocs -/

/-- Blanks at the end of a line do not count for its trimmed text. -/
private theorem trim_append {l blanks : List Char} (h : ∀ c ∈ blanks, Text.isBlank c = true) :
    Text.trim (l ++ blanks) = Text.trim l := by
  rw [Text.trim, Text.trim, List.dropWhile_append]
  split
  · next hempty =>
    rw [List.isEmpty_iff.mp hempty, List.dropWhile_eq_nil_iff.mpr h]
  · rw [Text.trimEnd, Text.trimEnd, List.reverse_append, List.dropWhile_append_of_pos]
    simpa using h

/-- Trimming carriage returns first makes no difference. -/
private theorem trim_trimEnd (l : List Char) :
    Text.trim (Text.trimEnd (· = '\r') l) = Text.trim l := by
  -- What is cut off are carriage returns, which are blanks.
  have hsplit : l = Text.trimEnd (· = '\r') l ++ (l.reverse.takeWhile (· = '\r')).reverse := by
    rw [Text.trimEnd, ← List.reverse_append, List.takeWhile_append_dropWhile, List.reverse_reverse]
  have hblank : ∀ c ∈ (l.reverse.takeWhile (· = '\r')).reverse, Text.isBlank c = true := by
    intro c hc
    have hc := List.all_eq_true.mp List.all_takeWhile c (List.mem_reverse.mp hc)
    rw [of_decide_eq_true hc]
    decide
  rw [← trim_append hblank, ← hsplit]

/-- A word has no blanks to drop. -/
private theorem dropWhile_isBlank_of_isPlainWordChar {l : List Char}
    (h : ∀ c ∈ l, isPlainWordChar c = true) : l.dropWhile Text.isBlank = l := by
  cases l with
  | nil => rfl
  | cons c l =>
    rw [List.dropWhile_cons_of_neg]
    simp [(classes_of_isPlainWordChar (h c List.mem_cons_self)).1.2.1]

/-- An indented terminator is trimmed to itself. -/
private theorem trim_terminator (indent : Indent) (t : TextOf isCapitalized) :
    Text.trim (indent.val ++ t.val) = t.val := by
  have hblank : ∀ c ∈ indent.val, Text.isBlank c = true := by
    intro c hc
    have hspace : isSpace c = true := List.all_eq_true.mp indent.property c hc
    simp only [isSpace, Bool.or_eq_true, decide_eq_true_eq] at hspace
    rcases hspace with rfl | rfl <;> decide
  obtain ⟨c, cs, hcs, -, hall⟩ := exists_cons_of_isWordFrom t.property
  rw [← hcs] at hall
  rw [Text.trim, List.dropWhile_append_of_pos hblank, dropWhile_isBlank_of_isPlainWordChar hall,
    Text.trimEnd, dropWhile_isBlank_of_isPlainWordChar (by simpa using hall), List.reverse_reverse]

/-- There is no newline in an indentation. -/
private theorem newline_not_mem_indent (indent : Indent) : '\n' ∉ indent.val := by
  intro h
  exact absurd (List.all_eq_true.mp indent.property _ h) (by decide)

/-- There is no newline in a word. -/
private theorem newline_not_mem_word {first : Char → Bool} {w : List Char}
    (hw : isWordFrom first w = true) : '\n' ∉ w := by
  intro h
  exact absurd (isWordChar_of_mem hw _ h) (by decide)

/-- The body of a heredoc is passed over to the line of its terminator, which no line of the body
    is. -/
private theorem linesThrough_heredoc (t : TextOf isCapitalized)
    (lines : List (BodyLine t)) (indent : Indent) (rest : List Char) {k : Cursor}
    (hk : k.rest = lines.flatMap (·.val ++ ['\n']) ++ indent.val ++ t.val ++ '\n' :: rest) :
    ∃ before, k.linesThrough (Heredoc.endsAt ⟨t.val, true⟩) =
      (true, { before, line := k.line + lines.length + 1, column := 0, rest }) := by
  -- By induction on the lines of the body.
  induction lines generalizing k with
  | nil =>
    have hline : '\n' ∉ indent.val ++ t.val := by
      rw [List.mem_append]
      exact fun h => h.elim (newline_not_mem_indent indent) (newline_not_mem_word t.property)
    have hends : Heredoc.endsAt ⟨t.val, true⟩ k.currentLine = true := by
      rw [Cursor.currentLine, hk, List.flatMap_nil, List.nil_append,
        takeWhile_ne_newline rest hline]
      simp [Heredoc.endsAt, trim_trimEnd, trim_terminator]
    obtain ⟨before, hnext⟩ := Cursor.nextLine_eq hk hline
    refine ⟨before, ?_⟩
    rw [Cursor.linesThrough, dif_neg (by simp [hk]), if_pos hends, hnext]
    rfl
  | cons line lines ih =>
    obtain ⟨l, hline, hother⟩ := line
    have hk' : k.rest = l ++ '\n' :: (lines.flatMap (·.val ++ ['\n']) ++ indent.val ++ t.val ++
        '\n' :: rest) := by
      simpa using hk
    have hends : ¬Heredoc.endsAt ⟨t.val, true⟩ k.currentLine = true := by
      rw [Cursor.currentLine, hk', takeWhile_ne_newline _ hline]
      simpa [Heredoc.endsAt, trim_trimEnd] using hother
    obtain ⟨before, hnext⟩ := Cursor.nextLine_eq hk' hline
    obtain ⟨before', ih⟩ := ih (congrArg Cursor.rest hnext)
    refine ⟨before', ?_⟩
    have hcount : k.line + 1 + lines.length + 1 = k.line + (lines.length + 1) + 1 := by omega
    rw [Cursor.linesThrough, dif_neg (by simp [hk']), if_neg hends, ih, hnext]
    simp only [List.length_cons, hcount]

/-- A terminator is announced as a whole, up to the end of its line. -/
private theorem opening?_terminator (t : TextOf isCapitalized) (rest : List Char) :
    Heredoc.opening? ('~' :: t.val ++ '\n' :: rest) =
      some (⟨t.val, true⟩, t.val.length + 1) := by
  obtain ⟨w, hw⟩ := t
  have htake : (w ++ '\n' :: rest).takeWhile (fun d => Text.isAlphanumeric d ∨ d = '_') = w := by
    obtain ⟨c, cs, rfl, -, hall⟩ := exists_cons_of_isWordFrom hw
    rw [List.takeWhile_append_of_pos]
    · simp [show Text.isAlphanumeric '\n' = false by decide]
    · exact fun d hd => decide_eq_true (classes_of_isPlainWordChar (hall d hd)).2.1
  obtain ⟨c, cs, rfl, hc, hall⟩ := exists_cons_of_isWordFrom hw
  obtain ⟨⟨-, -, hquote⟩, -, -, hupper⟩ := classes_of_isPlainWordChar (hall c List.mem_cons_self)
  have hletter := (hupper hc).2
  rw [List.cons_append] at htake
  simp only [List.cons_append, Heredoc.opening?, Heredoc.terminator?, hquote, hletter, htake]
  simp

/-- The announcement of a heredoc where an operand is expected. -/
private theorem passes_heredoc {line column : Nat} {m : Mode} (t : TextOf isCapitalized)
    {cs : List Char} (hvalue : m.value = true) (hm : m.heredocs = []) :
    Passes line column m ('<' :: '<' :: '~' :: t.val) []
      { m with value := false, dot := false, heredocs := [⟨t.val, true⟩] } ('\n' :: cs) := by
  refine Passes.of_read (Or.inr (by decide)) fun r hr => ?_
  have hheredocs : r.heredocs ++ [⟨t.val, true⟩] = [⟨t.val, true⟩] := by
    rw [hr.heredocs_eq, hm]
    rfl
  refine ⟨{ (r.hop ('<' :: '<' :: '~' :: t.val).length).markValue with
    heredocs := r.heredocs ++ [⟨t.val, true⟩] },
    { hr.hop.markValue with heredocs_eq := hheredocs }, ?_⟩
  change r.readLessThan ('<' :: ('~' :: t.val ++ '\n' :: cs)) = _
  simp only [Reader.readLessThan, opening?_terminator]
  rw [if_pos (Or.inl (hr.value_eq.trans hvalue))]
  rfl

/-- A heredoc takes up the line of its announcement, those of its body and that of its
    terminator. -/
private theorem count_newline_heredoc (x : Variable) (t : TextOf isCapitalized)
    (lines : List (BodyLine t)) (indent : Indent) :
    (Statement.heredoc x t lines indent).literal.count '\n' = lines.length + 1 := by
  have hlines : (lines.flatMap (·.val ++ ['\n'])).count '\n' = lines.length := by
    induction lines with
    | nil => rfl
    | cons line lines ih =>
      rw [List.flatMap_cons, List.count_append, List.count_append,
        List.count_eq_zero.mpr line.property.1, ih, List.length_cons, Nat.add_comm]
      rfl
  simp [-List.flatMap_subtype, Statement.literal, List.count_append, hlines,
    List.count_eq_zero.mpr (newline_not_mem_indent indent),
    List.count_eq_zero.mpr (newline_not_mem_word t.property)]

/-! ## Statements -/

/-- A line that is passed to its end. -/
private theorem Passes.to_next_line {line column : Nat} {m m' : Mode} {text rest : List Char}
    {tokens : List Token} {r : Reader} (h : Passes line column m text tokens m' ('\n' :: rest))
    (hm : m'.heredocs = []) (hr : r.Stands line column m (text ++ '\n' :: rest)) :
    ∃ r' : Reader, r'.Stands (line + 1) 0 { blocks := m'.blocks } rest ∧
      r.events = tokens.map .token ++ r'.events := by
  obtain ⟨r₁, hr₁, he₁⟩ := h r hr
  obtain ⟨r', hr', he'⟩ := hr₁.plain_newline hm
  exact ⟨r', hr', he₁.trans (congrArg _ he')⟩

/-- A string is passed over; it may end on a later line. -/
theorem Reader.Stands.string {r : Reader} {line column : Nat} {m : Mode} {next : List Char}
    (body : TextOf isQuotable) (h : r.Stands line column m ('"' :: body.val ++ '"' :: next))
    (hm : m.loop = false) :
    ∃ (r' : Reader) (column' : Nat),
      r'.Stands (line + body.val.count '\n') column' { m with value := false, dot := false } next ∧
        r.events = r'.events := by
  obtain ⟨before, column', hskip⟩ := skipFrames_string body.property r.line
    (r.toCursor.hop 1).toPlace next
  have hstep : r.step? = some (r.skipLiteral 1 (Frame.string '"')) :=
    Reader.step?_eq_read h.rest_eq (Or.inr (by decide))
  have hrest : (r.toCursor.hop 1).rest = body.val ++ '"' :: next := by
    rw [Cursor.rest_hop, h.rest_eq]
    rfl
  rw [Reader.skipLiteral, hrest, hskip] at hstep
  refine ⟨_, column', ?_, Reader.events_of_step? hstep⟩
  -- A loop on the line of the opening quote would be on an earlier line now, hence `hm`.
  have hloop := h.loop_eq
  rw [hm] at hloop
  exact { h with
    rest_eq := rfl, column_eq := rfl, value_eq := rfl, dot_eq := rfl
    line_eq := congrArg (· + body.val.count '\n') h.line_eq
    loop_eq := by
      rw [hm]
      exact fun l hl => Nat.lt_of_lt_of_le (hloop l hl) (Nat.le_add_right _ _) }

/-- An assignment up to the literal that is assigned. -/
private theorem passes_assignment {line column : Nat} {blocks : List Block} (x : Variable)
    {next : List Char} :
    Passes line column { blocks } (Piece.textOf [.identifier x.val, .silent " = "])
      (Piece.tokensOf line column [.identifier x.val, .silent " = "]) { blocks } next :=
  .cons (passes_variable x rfl) <| .last <| (passes_space rfl).append <|
    (passes_operator (Or.inr ⟨rfl, Nat.succ_ne_zero _⟩)).append (passes_space rfl)

/-- A statement is read with its literal, and opens no block. -/
theorem Statement.reads (s : Statement) {r : Reader} {line column : Nat} {blocks : List Block}
    {rest : List Char}
    (hr : r.Stands line column { blocks } (Piece.textOf s.pieces ++ s.literal ++ '\n' :: rest)) :
    ∃ r' : Reader, r'.Stands (line + s.literal.count '\n' + 1) 0 { blocks } rest ∧
      r.events = (Piece.tokensOf line column s.pieces).map .token ++ r'.events := by
  cases s with
  | call x =>
    rw [literal, List.append_nil] at hr
    exact Passes.to_next_line (.last (passes_variable x rfl)) rfl hr
  | conditional x y =>
    rw [literal, List.append_nil] at hr
    -- After `x` an operand is complete, so the keyword opens no block.
    exact Passes.to_next_line (.cons (passes_variable x rfl) <| .cons (passes_space rfl) <|
      .cons (passes_keyword (by decide) rfl rfl) <| .cons (passes_space rfl) <|
      .last (passes_variable y rfl)) rfl hr
  | string x body =>
    have htext : literal (.string x body) ++ '\n' :: rest =
        '"' :: body.val ++ '"' :: '\n' :: rest := by
      simp [literal]
    have hcount : (literal (.string x body)).count '\n' = body.val.count '\n' := by
      simp [literal]
    rw [List.append_assoc, htext] at hr
    obtain ⟨r₁, hr₁, he₁⟩ := passes_assignment x r hr
    obtain ⟨r₂, column', hr₂, he₂⟩ := hr₁.string body rfl
    obtain ⟨r', hr', he'⟩ := hr₂.plain_newline rfl
    rw [hcount]
    exact ⟨r', hr', he₁.trans (congrArg _ (he₂.trans he'))⟩
  | heredoc x t lines indent =>
    have htext : literal (.heredoc x t lines indent) ++ '\n' :: rest =
        '<' :: '<' :: '~' :: t.val ++ '\n' :: (lines.flatMap (·.val ++ ['\n']) ++ indent.val ++
          t.val ++ '\n' :: rest) := by
      simp [literal]
    rw [List.append_assoc, htext] at hr
    obtain ⟨r₁, hr₁, he₁⟩ := passes_assignment x r hr
    obtain ⟨r₂, hr₂, he₂⟩ := passes_heredoc t rfl rfl r₁ hr₁
    -- The body comes after the end of the line on which it was announced.
    have hbodies : ∀ before, ∃ before', skipBodies [⟨t.val, true⟩]
        { before, line := line + 1,
          rest := lines.flatMap (·.val ++ ['\n']) ++ indent.val ++ t.val ++ '\n' :: rest } =
        ({ before := before', line := line + 1 + lines.length + 1, column := 0, rest }, []) := by
      intro before
      obtain ⟨before', hthrough⟩ := linesThrough_heredoc t lines indent rest
        (k := { before, line := line + 1, rest := _ }) rfl
      exact ⟨before', by simp only [skipBodies, hthrough, if_true]⟩
    obtain ⟨r', hr', he'⟩ := hr₂.newline hbodies (by omega)
    have hline : line + (literal (.heredoc x t lines indent)).count '\n' + 1 =
        line + 1 + lines.length + 1 := by
      rw [count_newline_heredoc]
      omega
    rw [hline]
    exact ⟨r', hr', he₁.trans (congrArg _ (he₂.trans he'))⟩

/-! ## Comments -/

/-- A comment reaches to the end of its line. -/
private theorem passes_comment {line column : Nat} {m : Mode} (text : TextOf isCommentText)
    {cs : List Char} :
    Passes line column m ('#' :: text.val)
      [Token.comment (String.ofList ('#' :: text.val)) { line, column := column + 1 }] m
      ('\n' :: cs) := by
  obtain ⟨text, htext⟩ := text
  simp only [isCommentText, Bool.and_eq_true, decide_eq_true_eq] at htext
  obtain ⟨hline, hlast⟩ := htext
  -- No carriage return is cut off: the last character is the hash sign or one of the text.
  have htrim : Text.trimEnd (· = '\r') ('#' :: text) = '#' :: text := by
    rcases text.eq_nil_or_concat with rfl | ⟨init, c, rfl⟩
    · rfl
    · have hc : c ≠ '\r' := by simpa using hlast
      simp [Text.trimEnd, hc]
  refine Passes.of_read (Or.inr (by decide)) fun r hr => ⟨_, hr.hop, ?_⟩
  change r.readComment = _
  rw [Reader.readComment_eq hr.rest_eq hline, htrim, hr.location_eq]
  rfl

/-! ## Lines -/

/-- There is no newline in a variable. -/
private theorem newline_not_mem_variable (x : Variable) : '\n' ∉ x.val := by
  obtain ⟨w, hw⟩ := x
  simp only [isVariable, Bool.and_eq_true] at hw
  exact newline_not_mem_word hw.1

/-- There is no newline in a path of constants. -/
private theorem ConstantPath.newline_not_mem (path : ConstantPath) : '\n' ∉ path.text := by
  obtain ⟨⟨w, hw⟩, more⟩ := path
  simp only [isConstantName, Bool.and_eq_true] at hw
  rw [ConstantPath.text, List.mem_append, List.mem_flatMap]
  rintro (h | ⟨segment, -, h⟩)
  · exact newline_not_mem_word hw.1.1 h
  · simp only [List.mem_cons] at h
    rcases h with h | h | h
    · exact absurd h (by decide)
    · exact absurd h (by decide)
    · exact newline_not_mem_word segment.property h

/-- There is no newline in the name of a method. -/
private theorem MethodName.newline_not_mem (name : MethodName) : '\n' ∉ name.text := by
  obtain ⟨w, mark, hmark⟩ := name
  simp only [Bool.or_eq_true, decide_eq_true_eq] at hmark
  rw [MethodName.text, List.mem_append]
  rintro (h | h)
  · exact newline_not_mem_word w.property h
  · rcases hmark with (rfl | rfl) | rfl <;> simp at h

/-- A header stands on one line. -/
private theorem Header.newline_not_mem (h : Header) (inSingleton : Bool) :
    '\n' ∉ Piece.textOf (h.pieces inSingleton) := by
  have hasking : ∀ w ∈ ["if", "unless", "while", "until", "case"], '\n' ∉ w.toList := by decide
  cases h <;>
    simp [pieces, Piece.textOf, Piece.silent, Piece.keyword, Piece.opening, Piece.identifier,
      Piece.constant, newline_not_mem_variable, ConstantPath.newline_not_mem,
      MethodName.newline_not_mem]
  case asking keyword x => exact hasking _ keyword.property

/-- A statement stands on one line up to its literal. -/
private theorem Statement.newline_not_mem (s : Statement) : '\n' ∉ Piece.textOf s.pieces := by
  cases s <;>
    simp [pieces, Piece.textOf, Piece.silent, Piece.keyword, Piece.identifier,
      newline_not_mem_variable]

/-- The text of a header does not depend on where it stands. -/
private theorem Header.textOf_pieces (h : Header) (inSingleton : Bool) :
    Piece.textOf (h.pieces inSingleton) = Piece.textOf (h.pieces false) := by
  cases h <;> rfl

namespace Program

/-- A comment takes one line. -/
private theorem lines_comment (indent : Indent) (text : TextOf isCommentText) (rest : Program) :
    (comment indent text rest).lines = rest.lines + 1 := by
  obtain ⟨cs, hcs⟩ := text
  simp only [isCommentText, Bool.and_eq_true, decide_eq_true_eq] at hcs
  simp [lines, Program.text, List.count_append, List.count_eq_zero.mpr hcs.1,
    List.count_eq_zero.mpr (newline_not_mem_indent indent)]

/-- A statement takes one line, and as many more as its literal has newlines. -/
private theorem lines_statement (indent : Indent) (s : Statement) (rest : Program) :
    (statement indent s rest).lines = s.literal.count '\n' + 1 + rest.lines := by
  simp [lines, Program.text, List.count_append, List.count_eq_zero.mpr s.newline_not_mem,
    List.count_eq_zero.mpr (newline_not_mem_indent indent)]
  omega

/-- A body takes a line for its header and one for its `end`. -/
private theorem lines_body (indent : Indent) (header : Header) (inner : Program)
    (endIndent : Indent) (rest : Program) :
    (body indent header inner endIndent rest).lines = 1 + inner.lines + 1 + rest.lines := by
  have hend : header.block.ending.text.count '\n' = 0 := rfl
  simp [lines, Program.text, List.count_append, hend,
    List.count_eq_zero.mpr (header.newline_not_mem false),
    List.count_eq_zero.mpr (newline_not_mem_indent indent),
    List.count_eq_zero.mpr (newline_not_mem_indent endIndent)]
  omega

/-- An indented line starts where its indentation ends. -/
private theorem passes_indented {line : Nat} {m m' : Mode} {text next : List Char}
    {tokens : List Token} (indent : Indent)
    (h : Passes line indent.val.length m text tokens m' next) :
    Passes line 0 m (indent.val ++ text) tokens m' next := by
  rw [← Nat.zero_add indent.val.length] at h
  exact (passes_indent indent).append h

/-- A program brings up its tokens, and leaves the reader at the start of a line with the blocks
    that were open before. -/
theorem reads (p : Program) {r : Reader} {line : Nat} {blocks : List Block} {rest : List Char}
    (hr : r.Stands line 0 { blocks } (p.text ++ rest)) :
    ∃ r' : Reader, r'.Stands (line + p.lines) 0 { blocks } rest ∧
      r.events = (p.tokens line (singletonIn blocks)).map .token ++ r'.events := by
  induction p generalizing r line blocks rest with
  | done => exact ⟨r, hr, rfl⟩
  | comment indent content next ih =>
    rw [text, List.append_assoc] at hr
    obtain ⟨r₁, hr₁, he₁⟩ := (passes_indented indent (passes_comment content)).to_next_line rfl hr
    obtain ⟨r', hr', he'⟩ := ih hr₁
    rw [Nat.add_assoc, Nat.add_comm 1, ← lines_comment indent content] at hr'
    exact ⟨r', hr', he₁.trans (congrArg _ he')⟩
  | statement indent s next ih =>
    rw [text, List.append_assoc, List.append_assoc, List.append_assoc] at hr
    obtain ⟨r₁, hr₁, he₁⟩ := passes_indent indent r hr
    rw [Nat.zero_add, ← List.append_assoc] at hr₁
    obtain ⟨r₂, hr₂, he₂⟩ := s.reads hr₁
    obtain ⟨r', hr', he'⟩ := ih hr₂
    rw [Nat.add_assoc line, Nat.add_assoc line, ← lines_statement indent] at hr'
    refine ⟨r', hr', ?_⟩
    rw [tokens, List.map_append, List.append_assoc, ← he', ← he₂]
    exact he₁
  | body indent header inner endIndent next ihInner ih =>
    obtain ⟨m, hblocks, hheredocs, hheader⟩ := header.passes line indent.val.length blocks
      (inner.text ++ (endIndent.val ++ header.block.ending.text ++ '\n' :: (next.text ++ rest)))
    rw [header.textOf_pieces] at hheader
    have htext : (body indent header inner endIndent next).text ++ rest =
        indent.val ++ Piece.textOf (header.pieces false) ++ '\n' :: (inner.text ++
          (endIndent.val ++ header.block.ending.text ++ '\n' :: (next.text ++ rest))) := by
      simp [text]
    rw [htext] at hr
    -- The header opens a block, the items inside keep it open, and the `end` closes it.
    obtain ⟨r₁, hr₁, he₁⟩ := (passes_indented indent hheader).to_next_line hheredocs hr
    rw [hblocks] at hr₁
    obtain ⟨r₂, hr₂, he₂⟩ := ihInner hr₁
    obtain ⟨r₃, hr₃, he₃⟩ := (passes_indented endIndent (passes_end rfl rfl rfl)).to_next_line
      rfl hr₂
    obtain ⟨r', hr', he'⟩ := ih hr₃
    have hline : line + 1 + inner.lines + 1 + next.lines =
        line + (body indent header inner endIndent next).lines := by
      rw [lines_body]
      omega
    rw [hline] at hr'
    refine ⟨r', hr', ?_⟩
    rw [tokens, List.map_append, List.map_append, List.map_append, ← singletonIn_cons,
      List.append_assoc, List.append_assoc, List.append_assoc, ← he']
    exact he₁.trans (congrArg _ (he₂.trans (congrArg _ he₃)))

/-- A whole program brings up its tokens and nothing else. -/
private theorem events_text (p : Program) :
    events (String.ofList p.text) = (p.tokens 1 false).map .token := by
  have hstart : (Reader.start p.text).Stands 1 0 { blocks := [] } (p.text ++ []) := by
    rw [List.append_nil]
    exact Reader.start_stands p.text
  obtain ⟨r, hr, he⟩ := p.reads hstart
  have hend : r.events = [] := by
    have hstep : r.step? = none := by rw [Reader.step?, hr.rest_eq]
    rw [Reader.events_of_none hstep, Reader.finish, hr.heredocs_eq, hr.endless_eq, hr.blocks_eq]
    rfl
  rw [events, String.toList_ofList, he, hend, List.append_nil]
  rfl

end Program

/-- A reading that brings up tokens only goes to the end of the text and leaves no notice. -/
private theorem transcribe_of_events {source : String} {tokens : List Token} (strict : Bool)
    (file : Option String) (h : events source = tokens.map .token) :
    transcribe strict file source =
      { tokens := tokens.map (·.inFile file), notices := [], fault := none } := by
  have hfound : eventsIn file source = tokens.map fun t => .token (t.inFile file) := by
    rw [eventsIn, h, List.map_map]
    rfl
  -- No token is a fault, so all of them are heeded.
  have hheeded : (eventsIn file source).takeWhile (fun e => (e.fault? strict file).isNone) =
      tokens.map fun t => .token (t.inFile file) := by
    rw [hfound, List.takeWhile_eq_self_iff]
    intro e he
    obtain ⟨t, -, rfl⟩ := List.mem_map.mp he
    rfl
  have hfault : (eventsIn file source).findSome? (Event.fault? strict file) = none := by
    rw [hfound, List.findSome?_eq_none_iff]
    intro e he
    obtain ⟨t, -, rfl⟩ := List.mem_map.mp he
    rfl
  have htokens : (tokens.map fun t => Event.token (t.inFile file)).filterMap Event.token? =
      tokens.map (·.inFile file) := by
    rw [List.filterMap_map]
    exact congrFun List.filterMap_eq_map tokens
  have hnotices : (tokens.map fun t => Event.token (t.inFile file)).filterMap
      (Event.notice? file) = [] := by
    rw [List.filterMap_map, List.filterMap_eq_nil_iff]
    exact fun _ _ => rfl
  simp only [transcribe, hheeded, hfault, htokens, hnotices]

/-- Written out, a program is read back as its tokens, each at its place, whichever way it is read:
    nothing is wrong with it. -/
theorem Program.transcribe_text (p : Program) (strict : Bool) (file : Option String) :
    transcribe strict file (String.ofList p.text) =
      { tokens := (p.tokens 1 false).map (·.inFile file), notices := [], fault := none } :=
  transcribe_of_events strict file p.events_text

end ScopeTags.Source
