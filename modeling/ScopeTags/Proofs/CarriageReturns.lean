import ScopeTags.Proofs.LineCounting

/-!
# Looking ahead in a text with carriage returns

`withReturns` puts a carriage return in front of every newline of a text.  A reader that looks ahead
in such a text sees the return where it saw the newline before.  Nothing that it asks tells the two
apart: neither may stand in a word, a number or the name of an operator, and both are blank.  So
every question has the answer that it has for the text without the returns.

## Key results

- `take_withReturns`, `drop_withReturns`: the two texts agree up to the first newline
- `wordAt_withReturns`, `pathLength_withReturns`, `operatorLength_withReturns`,
  `isEndless_withReturns`, `Heredoc.opening?_withReturns` and the like: the answers are the same
-/

namespace ScopeTags.Source

/-- The text with a carriage return in front of each newline. -/
def withReturns (cs : List Char) : List Char :=
  cs.flatMap fun c => if c = '\n' then ['\r', '\n'] else [c]

variable (cs : List Char)

@[simp] theorem withReturns_nil : withReturns [] = [] := rfl

/-- A newline brings its return along. -/
@[simp] theorem withReturns_newline :
    withReturns ('\n' :: cs) = '\r' :: '\n' :: withReturns cs := rfl

variable {cs} in
/-- No other character does. -/
theorem withReturns_cons {c : Char} (hc : c ≠ '\n') :
    withReturns (c :: cs) = c :: withReturns cs := by
  simp [withReturns, hc]

@[simp] theorem withReturns_eq_nil : withReturns cs = [] ↔ cs = [] := by
  rcases cs with _ | ⟨c, cs⟩
  · simp
  · by_cases hc : c = '\n' <;> simp [hc, withReturns_cons]

/-- Returns are put in character by character, so a text may be cut anywhere. -/
theorem withReturns_append (ds : List Char) :
    withReturns (cs ++ ds) = withReturns cs ++ withReturns ds :=
  List.flatMap_append

variable {cs} in
/-- A text of one line is left as it is. -/
theorem withReturns_of_not_mem (h : '\n' ∉ cs) : withReturns cs = cs := by
  induction cs with
  | nil => rfl
  | cons c cs ih =>
    rw [List.mem_cons, not_or] at h
    rw [withReturns_cons (Ne.symm h.1), ih h.2]

/-- A text is empty, or starts with a newline, or with another character. -/
@[elab_as_elim]
theorem newline_cases {motive : List Char → Prop} (nil : motive [])
    (newline : ∀ rest, motive ('\n' :: rest)) (cons : ∀ c rest, c ≠ '\n' → motive (c :: rest)) :
    motive cs := by
  rcases cs with _ | ⟨c, rest⟩
  · exact nil
  · by_cases hc : c = '\n'
    · subst hc
      exact newline rest
    · exact cons c rest hc

variable {cs} in
/-- A character that is no return stood in the text before, at the same place. -/
private theorem eq_cons_of_withReturns {x : Char} {rest : List Char} (hx : x ≠ '\r')
    (h : withReturns cs = x :: rest) : ∃ tail, cs = x :: tail ∧ withReturns tail = rest := by
  cases cs using newline_cases with
  | nil => cases h
  | newline tail =>
    rw [withReturns_newline] at h
    exact absurd (List.cons.inj h).1.symm hx
  | cons c tail hc =>
    rw [withReturns_cons hc] at h
    obtain ⟨rfl, htail⟩ := List.cons.inj h
    exact ⟨tail, rfl, htail⟩

/-! ## Heads and stretches -/

section Class

variable {p : Char → Bool}

/-- A stretch of characters ends in front of a return where it ended in front of a newline. -/
theorem takeWhile_withReturns (hreturn : p '\r' = false) (hnewline : p '\n' = false) :
    (withReturns cs).takeWhile p = cs.takeWhile p := by
  induction cs with
  | nil => rfl
  | cons c cs ih =>
    by_cases hc : c = '\n'
    · simp [hc, hreturn, hnewline]
    · simp [withReturns_cons hc, List.takeWhile_cons, ih]

/-- What follows such a stretch is again the text with returns. -/
theorem dropWhile_withReturns (hreturn : p '\r' = false) (hnewline : p '\n' = false) :
    (withReturns cs).dropWhile p = withReturns (cs.dropWhile p) := by
  induction cs with
  | nil => rfl
  | cons c cs ih =>
    by_cases hc : c = '\n'
    · simp [hc, hreturn, hnewline]
    · cases hp : p c with
      | true => simp [withReturns_cons hc, hp, ih]
      | false => simp [withReturns_cons hc, hp]

/-- A question to the next character has one answer where returns and newlines answer it alike. -/
theorem any_head?_withReturns (hp : p '\r' = p '\n') :
    (withReturns cs).head?.any p = cs.head?.any p := by
  cases cs using newline_cases with
  | nil => rfl
  | newline rest => simp [hp]
  | cons c rest hc => simp [withReturns_cons hc]

/-- A question has one answer in both texts also where the end of a text answers it with yes. -/
private theorem all_head?_withReturns (hp : p '\r' = p '\n') :
    (withReturns cs).head?.all p = cs.head?.all p := by
  cases cs using newline_cases with
  | nil => rfl
  | newline rest => simp [hp]
  | cons c rest hc => simp [withReturns_cons hc]

end Class

/-- The next character is the same unless it is a newline. -/
theorem head?_withReturns_eq {x : Char} (hreturn : x ≠ '\r') (hnewline : x ≠ '\n') :
    (withReturns cs).head? = some x ↔ cs.head? = some x := by
  cases cs using newline_cases with
  | nil => rfl
  | newline rest => simp [hreturn.symm, hnewline.symm]
  | cons c rest hc => simp [withReturns_cons hc]

/-- No newline is next: its return is in front of it. -/
theorem head?_withReturns_ne_newline : (withReturns cs).head? ≠ some '\n' := by
  cases cs using newline_cases with
  | nil => simp
  | newline rest => simp
  | cons c rest hc => simp [withReturns_cons hc, hc]

section SameLine

variable {cs} {n : Nat}

/-- Up to the first newline the texts agree. -/
theorem take_withReturns (h : SameLine n cs) : (withReturns cs).take n = cs.take n := by
  induction n generalizing cs with
  | zero => simp
  | succ n ih =>
    cases cs with
    | nil => rfl
    | cons c cs =>
      -- Each character taken is no newline, so none brings a return.
      obtain ⟨hc, hrest⟩ := sameLine_succ.mp h
      simp [withReturns_cons hc, ih hrest]

/-- What is left after some characters of the first line is again the text with returns. -/
theorem drop_withReturns (h : SameLine n cs) :
    (withReturns cs).drop n = withReturns (cs.drop n) := by
  induction n generalizing cs with
  | zero => simp
  | succ n ih =>
    cases cs with
    | nil => rfl
    | cons c cs =>
      obtain ⟨hc, hrest⟩ := sameLine_succ.mp h
      simp [withReturns_cons hc, ih hrest]

end SameLine

/-! ## Words and numbers -/

/-- No word goes over the end of a line. -/
theorem wordLength_withReturns : wordLength (withReturns cs) = wordLength cs :=
  congrArg List.length (takeWhile_withReturns cs (by decide) (by decide))

/-- What follows a word is what followed it, with returns. -/
private theorem drop_wordLength_withReturns :
    (withReturns cs).drop (wordLength cs) = withReturns (cs.drop (wordLength cs)) :=
  drop_withReturns (sameLine_wordLength cs)

/-- A text starts with a capital in both forms or in neither. -/
private theorem startsUppercase_withReturns :
    startsUppercase (withReturns cs) = startsUppercase cs :=
  any_head?_withReturns cs (by decide)

/-- The word is the same, with the mark that may end it, for an equals sign after the mark is the
    only character there that matters. -/
theorem wordAt_withReturns : wordAt (withReturns cs) = wordAt cs := by
  have hdrop := drop_wordLength_withReturns cs
  unfold wordAt
  rw [takeWhile_withReturns cs (by decide) (by decide), startsUppercase_withReturns]
  rw [wordLength] at hdrop
  simp only [hdrop]
  -- What is left to compare are the two characters after the word.
  generalize cs.takeWhile isWordChar = word
  cases cs.drop word.length using newline_cases with
  | nil => rfl
  | newline rest => simp
  | cons c rest hc =>
    simp [withReturns_cons hc, head?_withReturns_eq rest (x := '=') (by decide) (by decide)]

/-- A colon that makes a label is followed by no colon, be it at the end of the line or not. -/
theorem isLabelColon_withReturns : isLabelColon (withReturns cs) = isLabelColon cs := by
  cases cs using newline_cases with
  | nil => rfl
  | newline rest => simp [isLabelColon]
  | cons c rest hc =>
    rw [withReturns_cons hc]
    -- The second character matters only after a colon.
    by_cases hcolon : c = ':'
    · cases rest using newline_cases with
      | nil => rfl
      | newline rest => simp [isLabelColon, hcolon]
      | cons d rest hd =>
        rw [withReturns_cons hd]
        by_cases h : d = ':' <;> simp [isLabelColon, hcolon, h]
    · simp [isLabelColon, hcolon]

/-- The path of a constant is the same: two colons and a word, as often as they come. -/
theorem pathLength_withReturns : pathLength (withReturns cs) = pathLength cs := by
  fun_induction pathLength cs with
  | case1 c rest hc n ih =>
    -- A segment starts with a capital, so it is read in both texts, and the rest by induction.
    have hne : c ≠ '\n' := by
      rintro rfl
      exact absurd hc (by decide)
    rw [withReturns_cons (by decide), withReturns_cons (by decide), withReturns_cons hne,
      pathLength, if_pos hc, ← withReturns_cons hne, wordLength_withReturns]
    dsimp only
    rw [drop_wordLength_withReturns, ih]
  | case2 c rest hc =>
    rw [withReturns_cons (by decide), withReturns_cons (by decide)]
    -- The colons are there, but what follows starts no segment, be it the return or the newline.
    by_cases hne : c = '\n'
    · subst hne
      rw [withReturns_newline, pathLength, if_neg (by decide)]
    · rw [withReturns_cons hne, pathLength, if_neg hc]
  | case3 cs hcs =>
    rw [pathLength]
    intro c rest heq
    -- Colons in the text with returns were colons before, and had a character after them.
    obtain ⟨ds, rfl, hds⟩ := eq_cons_of_withReturns (by decide) heq
    obtain ⟨es, rfl, hes⟩ := eq_cons_of_withReturns (by decide) hds
    cases es with
    | nil => cases hes
    | cons d es => exact hcs d es rfl

/-- A number is as long: a point belongs to it in front of a digit only, which neither a return nor
    a newline is. -/
theorem numberLength_withReturns : numberLength (withReturns cs) = numberLength cs := by
  have hreturn : Text.isAlphanumeric '\r' = false ∧ Text.isAlphanumeric '\n' = false := by decide
  induction cs with
  | nil => rfl
  | cons c cs ih =>
    by_cases hc : c = '\n'
    · simp [hc, numberLength, hreturn]
    · rw [withReturns_cons hc, numberLength, numberLength, ih,
        any_head?_withReturns cs (by decide)]

/-- A symbol takes its mark along, and an equals sign unless that begins an arrow. -/
theorem symbolLength_withReturns : symbolLength (withReturns cs) = symbolLength cs := by
  simp only [symbolLength, wordLength_withReturns, drop_wordLength_withReturns]
  cases cs.drop (wordLength cs) using newline_cases with
  | nil => rfl
  | newline rest => simp
  | cons c rest hc =>
    rw [withReturns_cons hc]
    -- Only after an equals sign does a second character matter.
    by_cases hequals : c = '='
    · simp [hequals, head?_withReturns_eq rest (x := '>') (by decide) (by decide)]
    · by_cases hmark : c = '?' <;> by_cases hmark' : c = '!' <;> simp [hequals, hmark, hmark']

/-! ## Operators and markers -/

/-- Whether a name comes next is the same for every name that fits on one line. -/
private theorem isPrefixOf_withReturns {name : List Char} (hreturn : '\r' ∉ name)
    (hnewline : '\n' ∉ name) : name.isPrefixOf (withReturns cs) = name.isPrefixOf cs := by
  induction name generalizing cs with
  | nil => rfl
  | cons a name ih =>
    rw [List.mem_cons, not_or] at hreturn hnewline
    cases cs using newline_cases with
    | nil => rfl
    | newline rest =>
      -- The name goes on where the line ends: it fails at the return as it did at the newline.
      simp [List.isPrefixOf, beq_false_of_ne (Ne.symm hreturn.1),
        beq_false_of_ne (Ne.symm hnewline.1)]
    | cons c rest hc => simp [withReturns_cons hc, List.isPrefixOf, ih rest hreturn.2 hnewline.2]

/-- The operator at the start is the same, for none has a return or a newline in its name. -/
theorem operatorLength_withReturns : operatorLength (withReturns cs) = operatorLength cs := by
  have hnames : ∀ name ∈ operatorNames, '\r' ∉ name.toList ∧ '\n' ∉ name.toList := by decide
  -- The first of the names that fits is found by the same tests.
  unfold operatorLength
  rw [List.find?_congr fun name hname =>
    isPrefixOf_withReturns cs (hnames name hname).1 (hnames name hname).2]

/-- A marker is there, and the character after it is a blank or another one of a class that returns
    and newlines are both in or both not in. -/
private theorem marker_withReturns {marker : List Char} (hreturn : '\r' ∉ marker)
    (hnewline : '\n' ∉ marker) {ends : Char → Bool} (hends : ends '\r' = ends '\n') :
    (marker.isPrefixOf (withReturns cs) && (withReturns cs)[marker.length]?.all ends) =
      (marker.isPrefixOf cs && cs[marker.length]?.all ends) := by
  rw [isPrefixOf_withReturns cs hreturn hnewline]
  cases hfound : marker.isPrefixOf cs with
  | false => rfl
  | true =>
    -- The marker is on the first line, so the character after it is the head of what is left.
    have hline := sameLine_of_prefix (List.isPrefixOf_iff_prefix.mp hfound) hnewline
    rw [← List.head?_drop, ← List.head?_drop, drop_withReturns hline,
      all_head?_withReturns _ hends]

/-- The marker of the end of the code is the same. -/
theorem startsEndMarker_withReturns : startsEndMarker (withReturns cs) = startsEndMarker cs :=
  marker_withReturns cs (by decide) (by decide) (by decide)

/-- The start of an embedded document is the same. -/
theorem startsDocument_withReturns : startsDocument (withReturns cs) = startsDocument cs :=
  marker_withReturns cs (by decide) (by decide) (by decide)

/-! ## Definitions -/

/-- Spaces are those of the line, and returns are none of them. -/
theorem spacesLength_withReturns : spacesLength (withReturns cs) = spacesLength cs :=
  congrArg List.length (takeWhile_withReturns cs (by decide) (by decide))

/-- The receiver of a method is the same: a word and one dot after it. -/
theorem receiverLength_withReturns : receiverLength (withReturns cs) = receiverLength cs := by
  simp only [receiverLength, wordLength_withReturns, drop_wordLength_withReturns]
  rw [isPrefixOf_withReturns cs (by decide) (by decide), any_head?_withReturns cs (by decide)]
  -- What is left to compare are the two characters after the word.
  generalize "self.".toList.isPrefixOf cs = isSelf
  cases cs.drop (wordLength cs) using newline_cases with
  | nil => rfl
  | newline rest => simp
  | cons c rest hc =>
    rw [withReturns_cons hc]
    -- A second dot would make it a range, so the character after the dot matters.
    by_cases hdot : c = '.'
    · simp [hdot, head?_withReturns_eq rest (x := '.') (by decide) (by decide)]
    · simp [hdot]

/-- The name of a method is the same, with its mark. -/
theorem methodNameLength_withReturns : methodNameLength (withReturns cs) = methodNameLength cs := by
  simp only [methodNameLength, wordLength_withReturns, drop_wordLength_withReturns,
    operatorLength_withReturns]
  rw [any_head?_withReturns cs (by decide)]
  cases cs.drop (wordLength cs) using newline_cases with
  | nil => rfl
  | newline rest => simp
  | cons c rest hc =>
    rw [withReturns_cons hc]
    by_cases hequals : c = '='
    · -- An equals sign belongs to the name in front of a parenthesis.
      subst hequals
      cases rest using newline_cases with
      | nil => rfl
      | newline rest => simp
      | cons d rest hd =>
        rw [withReturns_cons hd]
        by_cases h : d = '(' <;> simp [h]
    · by_cases hmark : c = '?' <;> by_cases hmark' : c = '!' <;> simp [hequals, hmark, hmark']

/-- Parameters may go over several lines, and what follows them is the text with returns. -/
private theorem dropParentheses_withReturns (depth : Nat) :
    dropParentheses depth (withReturns cs) = withReturns (dropParentheses depth cs) := by
  induction cs generalizing depth with
  | nil => rfl
  | cons c cs ih =>
    by_cases hc : c = '\n'
    -- Neither the newline nor its return opens or closes a parenthesis.
    · simp [hc, dropParentheses, ih]
    · rw [withReturns_cons hc]
      simp only [dropParentheses, ih]
      split
      · rfl
      · split
        · split <;> rfl
        · rfl

/-- Parameters, if there are any, are dropped from both texts alike. -/
private theorem dropParameters_withReturns :
    dropParameters (withReturns cs) = withReturns (dropParameters cs) := by
  unfold dropParameters
  rw [dropWhile_withReturns cs (by decide) (by decide)]
  cases cs.dropWhile isSpace using newline_cases with
  | nil => rfl
  | newline rest => simp
  | cons c rest hc =>
    rw [withReturns_cons hc]
    by_cases hparenthesis : c = '('
    · subst hparenthesis
      simp only [dropParentheses_withReturns]
      exact dropWhile_withReturns _ (by decide) (by decide)
    · simp [hparenthesis, withReturns_cons hc]

/-- A definition is endless in both texts or in neither: an equals sign follows its parameters, and
    no operator. -/
theorem isEndless_withReturns : isEndless (withReturns cs) = isEndless cs := by
  unfold isEndless
  rw [dropParameters_withReturns]
  cases dropParameters cs using newline_cases with
  | nil => rfl
  | newline rest => simp
  | cons c rest hc =>
    rw [withReturns_cons hc]
    by_cases hequals : c = '='
    · subst hequals
      -- Neither a return nor a newline makes an operator of the equals sign.
      exact all_head?_withReturns rest (by decide)
    · simp [hequals]

/-! ## Literals and heredocs -/

/-- A percent sign opens the same literal: a blank is no delimiter, be it the return or the
    newline. -/
theorem percentOpening?_withReturns : percentOpening? (withReturns cs) = percentOpening? cs := by
  have hblank : Text.isBlank '\r' = true ∧ Text.isBlank '\n' = true := by decide
  have htype : isPercentType '\r' = false ∧ isPercentType '\n' = false := by decide
  cases cs using newline_cases with
  | nil => rfl
  | newline rest => simp [percentOpening?, hblank, htype]
  | cons c rest hc =>
    rw [withReturns_cons hc]
    cases rest using newline_cases with
    | nil => rfl
    | newline rest => simp [percentOpening?, hblank]
    | cons d rest hd => simp only [withReturns_cons hd, percentOpening?]

/-- A character literal is as long: it is none where a blank comes next. -/
theorem characterLength?_withReturns : characterLength? (withReturns cs) = characterLength? cs := by
  have hblank : Text.isBlank '\r' = true ∧ Text.isBlank '\n' = true := by decide
  cases cs using newline_cases with
  | nil => rfl
  | newline rest => simp [characterLength?, hblank]
  | cons c rest hc =>
    rw [withReturns_cons hc, characterLength?, characterLength?,
      any_head?_withReturns rest (by decide)]

/-- A quoted name closes before a newline or not at all.  In front of the newline the return is
    taken along, but no quote follows it. -/
private theorem closes_withReturns {q : Char} (hq : isQuote q = true) {p : Char → Bool}
    (hp : p = fun d => decide (d ≠ q ∧ d ≠ '\n')) :
    ((withReturns cs)[((withReturns cs).takeWhile p).length]? = some q ↔
      cs[(cs.takeWhile p).length]? = some q) ∧
    (cs[(cs.takeWhile p).length]? = some q → (withReturns cs).takeWhile p = cs.takeWhile p) := by
  have hreturn : '\r' ≠ q := (ne_of_isQuote hq (by decide)).symm
  have hnewline : '\n' ≠ q := (ne_of_isQuote hq (by decide)).symm
  induction cs with
  | nil => simp
  | cons c cs ih =>
    by_cases hc : c = '\n'
    · -- Neither name closes: one ends at the newline, the other just past the return.
      simp [hc, hp, hreturn, hnewline]
    · rw [withReturns_cons hc]
      by_cases hcq : c = q
      · simp [hcq, hp]
      · have hpc : p c = true := by simp [hp, hc, hcq]
        simpa [hpc] using ih

/-- The name that ends a heredoc is the same, quoted or not. -/
private theorem Heredoc.terminator?_withReturns (indented : Bool) :
    terminator? indented (withReturns cs) = terminator? indented cs := by
  have hword : Text.isLetter '\r' = false ∧ Text.isLetter '\n' = false := by decide
  cases cs using newline_cases with
  | nil => rfl
  | newline rest => simp [terminator?, isQuote, hword]
  | cons c rest hc =>
    rw [withReturns_cons hc]
    simp only [terminator?]
    rw [← withReturns_cons hc, takeWhile_withReturns (c :: rest) (by decide) (by decide)]
    cases hquote : isQuote c with
    | false => rfl
    | true =>
      -- A quoted name closes in both texts or in neither, and where it does it is the same one.
      obtain ⟨hclose, hname⟩ := closes_withReturns rest hquote rfl
      simp only [hclose]
      split
      · split
        · next h => rw [hname h]
        · rfl
      · rfl

/-- So a heredoc is announced in both texts or in neither, by the same name. -/
theorem Heredoc.opening?_withReturns : opening? (withReturns cs) = opening? cs := by
  unfold opening?
  cases cs using newline_cases with
  | nil => rfl
  | newline rest =>
    rw [withReturns_newline]
    dsimp only
    rw [if_neg (by decide), if_neg (by decide), ← withReturns_newline, terminator?_withReturns]
  | cons c rest hc =>
    rw [withReturns_cons hc]
    dsimp only
    rw [← withReturns_cons hc, terminator?_withReturns, terminator?_withReturns]

end ScopeTags.Source
