import Mathlib.Data.List.Find
import Mathlib.Data.List.Infix
import Mathlib.Data.List.TakeWhile
import ScopeTags.Source.Step

/-!
# Looking ahead up to a quote

Before a reader takes a piece of the text it looks ahead: how far a word or a number reaches, which
operator stands next, whether a definition is an endless one.  Nearly all of these questions are
settled at the first quote, whatever comes after it.  So a text `x ++ q :: u` and a text
`x ++ q :: u'` give the same answer.

Three questions go on past a quote.  A character literal looks at one more character, a heredoc
looks for the quote that closes its terminator, and a definition looks for the parenthesis that
closes its parameters, in strings as elsewhere.

## Key results

- `wordAt_quote`, `pathLength_quote`, `numberLength_quote`, `operatorLength_quote`,
  `symbolLength_quote`, `percentOpening?_quote`: what settles at a quote
- `Heredoc.opening?_quote`, `isEndless_quote`: what may go on past it
- `unmatched`, `dropParentheses_append_of_lt`, `dropParentheses_append_of_le`: how far the look for
  a closing parenthesis goes
-/

namespace ScopeTags.Source

/-! ## Quotes -/

/-- The three quotes. -/
theorem eq_of_isQuote {q : Char} (h : isQuote q = true) : q = '"' ∨ q = '\x27' ∨ q = '\x60' := by
  simpa [isQuote, or_assoc] using h

/-- A class that none of the three quotes is in. -/
theorem eq_false_of_isQuote {p : Char → Bool} {q : Char} (hq : isQuote q = true)
    (hp : (p '"' || p '\x27' || p '\x60') = false) : p q = false := by
  simp only [Bool.or_eq_false_iff] at hp
  rcases eq_of_isQuote hq with rfl | rfl | rfl
  · exact hp.1.1
  · exact hp.1.2
  · exact hp.2

section Quote

variable {q : Char} (hq : isQuote q = true) (x u u' : List Char)

include hq

theorem ne_of_isQuote {c : Char} (hc : isQuote c = false) : q ≠ c := by
  rintro rfl
  rw [hq] at hc
  cases hc

omit hq in
/-- What follows a quote does not show in the first character. -/
theorem head?_append_cons : (x ++ q :: u').head? = (x ++ q :: u).head? := by
  cases x <;> rfl

omit hq in
/-- Both texts start with the same character. -/
theorem exists_cons_append : ∃ c w w', x ++ q :: u = c :: w ∧ x ++ q :: u' = c :: w' := by
  cases x with
  | nil => exact ⟨q, u, u', rfl, rfl⟩
  | cons c x => exact ⟨c, _, _, rfl, rfl⟩

omit hq in
/-- A run of characters ends at one that is not of its kind. -/
theorem takeWhile_append_stop {p : Char → Bool} (hp : p q = false) :
    (x ++ q :: u).takeWhile p = x.takeWhile p := by
  rw [List.takeWhile_append]
  split
  · next h =>
    have hx : x.takeWhile p = x := (List.takeWhile_prefix p).eq_of_length h
    simp [hp, hx]
  · rfl

omit hq in
/-- What comes after the run starts before that character or with it. -/
theorem dropWhile_append_stop {p : Char → Bool} (hp : p q = false) :
    (x ++ q :: u).dropWhile p = x.dropWhile p ++ q :: u := by
  rw [List.dropWhile_append]
  split
  · next h => simp [hp, List.isEmpty_iff.mp h]
  · rfl

/-- A word ends at a quote at the latest. -/
theorem wordLength_append : wordLength (x ++ q :: u) = wordLength x :=
  congrArg List.length (takeWhile_append_stop x u (eq_false_of_isQuote hq (by decide)))

omit hq in
theorem wordLength_le : wordLength x ≤ x.length :=
  (List.takeWhile_sublist isWordChar).length_le

omit hq in
/-- What follows the word in a text, and what follows that text. -/
private theorem drop_wordLength : (x ++ u).drop (wordLength x) = x.drop (wordLength x) ++ u :=
  List.drop_append_of_le_length (wordLength_le x)

/-! ## Words and numbers -/

/-- The word at the start is settled at a quote, with the mark that may follow it. -/
theorem wordAt_quote : wordAt (x ++ q :: u') = wordAt (x ++ q :: u) := by
  have hmark : q ≠ '?' ∧ q ≠ '!' := ⟨ne_of_isQuote hq rfl, ne_of_isQuote hq rfl⟩
  have hstop : isWordChar q = false := eq_false_of_isQuote hq (by decide)
  unfold wordAt startsUppercase
  simp only [takeWhile_append_stop _ _ hstop, head?_append_cons x u u']
  rw [← wordLength, drop_wordLength, drop_wordLength]
  -- A mark belongs to the word unless an equals sign follows, so one more character counts.
  cases x.drop (wordLength x) with
  | nil => simp [hmark]
  | cons d y => simp only [List.cons_append, head?_append_cons y u u']

/-- A word ends before the quote. -/
theorem wordAt_prefix : wordAt (x ++ q :: u) <+: x := by
  have hmark : q ≠ '?' ∧ q ≠ '!' := ⟨ne_of_isQuote hq rfl, ne_of_isQuote hq rfl⟩
  have hword : x.takeWhile isWordChar ++ x.drop (wordLength x) = x := by
    exact (List.prefix_append_drop (List.takeWhile_prefix isWordChar)).symm
  have hstop : isWordChar q = false := eq_false_of_isQuote hq (by decide)
  unfold wordAt
  simp only [takeWhile_append_stop _ _ hstop]
  rw [← wordLength, drop_wordLength]
  cases hd : x.drop (wordLength x) with
  | nil =>
    rw [hd] at hword
    simpa [hmark] using ⟨[], hword⟩
  | cons d y =>
    rw [hd] at hword
    -- With a mark the word is one character longer, which still stands before the quote.
    dsimp only [List.cons_append]
    split
    · exact ⟨y, by rw [List.append_assoc]; exact hword⟩
    · exact ⟨d :: y, hword⟩

omit hq in
/-- A mark makes a word longer. -/
private theorem wordLength_le_length_wordAt : wordLength x ≤ (wordAt x).length := by
  unfold wordAt
  dsimp only
  split
  · split
    · rw [List.length_append]
      exact Nat.le_add_right _ _
    · exact Nat.le_refl _
  · exact Nat.le_refl _

omit hq in
/-- The word `def` ends where no character of a word follows. -/
theorem head?_of_wordAt_eq_def {cs : List Char} (h : wordAt ("def".toList ++ cs) = "def".toList) :
    cs.head?.any isWordChar = false := by
  cases cs with
  | nil => rfl
  | cons c cs =>
    cases hc : isWordChar c with
    | false => exact hc
    | true =>
      -- The word would go on with that character and be longer than `def`.
      exfalso
      have hdef : "def".toList.all isWordChar = true := by decide
      have hlong := wordLength_le_length_wordAt ("def".toList ++ c :: cs)
      rw [h, wordLength, List.takeWhile_append_of_pos (List.all_eq_true.mp hdef),
        List.takeWhile_cons_of_pos hc, List.length_append, List.length_cons] at hlong
      omega

/-- Whether a colon makes a label. -/
theorem isLabelColon_quote : isLabelColon (x ++ q :: u') = isLabelColon (x ++ q :: u) := by
  have hcolon : q ≠ ':' := ne_of_isQuote hq rfl
  -- Two characters are looked at, and the quote can be either of them or stand after both.
  rcases x with _ | ⟨c, _ | ⟨d, y⟩⟩
  · simp [isLabelColon, hcolon]
  · by_cases hc : c = ':' <;> simp [isLabelColon, hc, hcolon]
  · by_cases hc : c = ':' <;> by_cases hd : d = ':' <;> simp [isLabelColon, hc, hd]

/-- How far a path of constants goes on. -/
theorem pathLength_quote : pathLength (x ++ q :: u') = pathLength (x ++ q :: u) := by
  have hcolon : q ≠ ':' := ne_of_isQuote hq rfl
  -- By induction on the length, since a path goes on after the whole of a word.
  induction hn : x.length using Nat.strong_induction_on generalizing x with
  | _ n ih =>
    subst hn
    rcases x with _ | ⟨c, _ | ⟨d, _ | ⟨e, y⟩⟩⟩
    · rw [pathLength, pathLength] <;> simp [hcolon]
    · rw [pathLength, pathLength] <;> simp [hcolon]
    · -- A path goes on with a capital, so not with a quote.
      by_cases hc : c = ':' ∧ d = ':'
      · obtain ⟨rfl, rfl⟩ := hc
        have hupper : Text.isUppercase q = false := eq_false_of_isQuote hq (by decide)
        simp [pathLength, hupper]
      · rw [pathLength, pathLength] <;> grind
    · by_cases hc : c = ':' ∧ d = ':'
      · obtain ⟨rfl, rfl⟩ := hc
        have hlt : ((e :: y).drop (wordLength (e :: y))).length < y.length + 3 := by
          rw [List.length_drop, List.length_cons]
          omega
        simp only [List.cons_append, pathLength]
        rw [← List.cons_append, ← List.cons_append, wordLength_append hq, wordLength_append hq,
          drop_wordLength, drop_wordLength, ih _ hlt _ rfl]
      · rw [pathLength, pathLength] <;> grind

/-- How far a number reaches. -/
theorem numberLength_quote : numberLength (x ++ q :: u') = numberLength (x ++ q :: u) := by
  induction x with
  | nil =>
    have hne : q ≠ '_' ∧ q ≠ '.' := ⟨ne_of_isQuote hq rfl, ne_of_isQuote hq rfl⟩
    have halphanumeric : Text.isAlphanumeric q = false := eq_false_of_isQuote hq (by decide)
    simp [numberLength, hne, halphanumeric]
  | cons c x ih => simp only [List.cons_append, numberLength, head?_append_cons x u u', ih]

/-- How far a symbol reaches. -/
theorem symbolLength_quote : symbolLength (x ++ q :: u') = symbolLength (x ++ q :: u) := by
  have hne : q ≠ '?' ∧ q ≠ '!' ∧ q ≠ '=' :=
    ⟨ne_of_isQuote hq rfl, ne_of_isQuote hq rfl, ne_of_isQuote hq rfl⟩
  simp only [symbolLength, wordLength_append hq, drop_wordLength]
  cases x.drop (wordLength x) with
  | nil => simp [hne]
  | cons d y =>
    -- Only an equals sign looks at the character after it.
    by_cases hd : d = '='
    · simp only [hd, List.cons_append, head?_append_cons y u u']
    · by_cases hm : d = '?' <;> by_cases hm' : d = '!' <;> simp [hd, hm, hm']

/-! ## Operators -/

omit hq in
/-- A name that has the quote nowhere but at its end is found without a look past the quote. -/
theorem isPrefixOf_quote {name : List Char} (hname : q ∉ name.dropLast) :
    name.isPrefixOf (x ++ q :: u') = name.isPrefixOf (x ++ q :: u) := by
  induction name generalizing x with
  | nil => rfl
  | cons a name ih =>
    cases x with
    -- Here the quote is the next character of the text.  It is not the next one of the name, unless
    -- the name ends with it.
    | nil =>
      cases name with
      | nil => rfl
      | cons b name =>
        have ha : a ≠ q := by
          rintro rfl
          simp at hname
        simp only [List.nil_append, List.isPrefixOf, beq_false_of_ne ha, Bool.false_and]
    | cons d x =>
      have hname' : q ∉ name.dropLast := by
        cases name with
        | nil => simp
        | cons b name =>
          intro h
          exact hname (List.mem_cons_of_mem _ h)
      simp only [List.cons_append, List.isPrefixOf, ih x hname']

/-- Which operator stands next. -/
theorem operatorLength_quote : operatorLength (x ++ q :: u') = operatorLength (x ++ q :: u) := by
  -- The back quote is an operator of its own and stands in no other.
  have hnames : ∀ name ∈ operatorNames, q ∉ name.toList.dropLast := by
    rcases eq_of_isQuote hq with rfl | rfl | rfl <;> decide
  unfold operatorLength
  rw [List.find?_congr fun name hname => isPrefixOf_quote x u u' (hnames name hname)]

/-! ## Definitions -/

/-- Spaces end at a quote. -/
theorem spacesLength_append : spacesLength (x ++ q :: u) = spacesLength x :=
  congrArg List.length (takeWhile_append_stop x u (eq_false_of_isQuote hq (by decide)))

/-- How far the receiver of a definition reaches, with its dot. -/
theorem receiverLength_quote : receiverLength (x ++ q :: u') = receiverLength (x ++ q :: u) := by
  have hself : q ∉ "self.".toList.dropLast := by
    rcases eq_of_isQuote hq with rfl | rfl | rfl <;> decide
  have hdot : q ≠ '.' := ne_of_isQuote hq rfl
  simp only [receiverLength, isPrefixOf_quote x u u' hself, head?_append_cons x u u',
    wordLength_append hq, drop_wordLength]
  -- Whether it is `self` is settled, so it need not be looked at again.
  generalize "self.".toList.isPrefixOf (x ++ q :: u) = isSelf
  cases x.drop (wordLength x) with
  | nil => simp [hdot]
  | cons d y =>
    by_cases hd : d = '.'
    · simp only [hd, List.cons_append, head?_append_cons y u u']
    · simp [hd]

/-- How far the name of a definition reaches. -/
theorem methodNameLength_quote :
    methodNameLength (x ++ q :: u') = methodNameLength (x ++ q :: u) := by
  have hne : q ≠ '?' ∧ q ≠ '!' ∧ q ≠ '=' ∧ q ≠ '(' :=
    ⟨ne_of_isQuote hq rfl, ne_of_isQuote hq rfl, ne_of_isQuote hq rfl, ne_of_isQuote hq rfl⟩
  simp only [methodNameLength, head?_append_cons x u u', wordLength_append hq, drop_wordLength,
    operatorLength_quote hq x u u']
  rcases x.drop (wordLength x) with _ | ⟨d, y⟩
  · simp [hne]
  by_cases hquestion : d = '?'
  · subst hquestion
    rfl
  by_cases hexclamation : d = '!'
  · subst hexclamation
    rfl
  by_cases hequals : d = '='
  · -- An equals sign belongs to the name in front of a parenthesis.
    subst hequals
    rcases y with _ | ⟨e, y⟩
    · simp [hne]
    · by_cases he : e = '('
      · subst he
        rfl
      · simp [he]
  · simp [hquestion, hexclamation, hequals]

/-! ## Literals and markers -/

/-- Which delimiter a percent literal has.  A quote can be one itself. -/
theorem percentOpening?_quote :
    percentOpening? (x ++ q :: u') = percentOpening? (x ++ q :: u) := by
  have htype : isPercentType q = false := by
    rcases eq_of_isQuote hq with rfl | rfl | rfl <;> decide
  rcases x with _ | ⟨c, _ | ⟨d, y⟩⟩
  · simp only [List.nil_append, percentOpening?, htype, Bool.false_eq_true, if_false]
  · simp only [List.cons_append, List.nil_append, percentOpening?]
  · simp only [List.cons_append, percentOpening?]

omit hq in
/-- A marker, and the character after it, stand before the quote or at it. -/
private theorem marker_quote (marker : List Char) (hmarker : q ∉ marker) (ends : Char → Bool) :
    (marker.isPrefixOf (x ++ q :: u') && (x ++ q :: u')[marker.length]?.all ends) =
      (marker.isPrefixOf (x ++ q :: u) && (x ++ q :: u)[marker.length]?.all ends) := by
  induction marker generalizing x with
  | nil => cases x <;> rfl
  | cons a marker ih =>
    cases x with
    | nil =>
      have ha : a ≠ q := fun h => hmarker (h ▸ List.mem_cons_self)
      simp only [List.nil_append, List.isPrefixOf, beq_false_of_ne ha, Bool.false_and]
    | cons d x =>
      have ih := ih x fun h => hmarker (List.mem_cons_of_mem a h)
      simp only [List.cons_append, List.isPrefixOf, List.length_cons, List.getElem?_cons_succ,
        Bool.and_assoc, ih]

/-- Whether the text ends here for a reader. -/
theorem startsEndMarker_quote :
    startsEndMarker (x ++ q :: u') = startsEndMarker (x ++ q :: u) := by
  refine marker_quote x u u' "__END__".toList ?_ _
  rcases eq_of_isQuote hq with rfl | rfl | rfl <;> decide

/-- Whether a block comment starts here. -/
theorem startsDocument_quote :
    startsDocument (x ++ q :: u') = startsDocument (x ++ q :: u) := by
  refine marker_quote x u u' "=begin".toList ?_ _
  rcases eq_of_isQuote hq with rfl | rfl | rfl <;> decide

/-! ## Past the quote

The questions that look further.  Each is settled alike for two texts under a condition on what
follows the quote. -/

omit hq in
/-- A question mark and a quote are no character literal where a character of a word follows, and
    here one follows in both texts. -/
theorem characterLength?_quote
    (hu : u.head?.any (fun d => Text.isAlphanumeric d || d = '_') = true)
    (hu' : u'.head?.any (fun d => Text.isAlphanumeric d || d = '_') = true) :
    characterLength? (x ++ q :: u') = characterLength? (x ++ q :: u) := by
  rcases x with _ | ⟨c, y⟩
  · simp only [List.nil_append, characterLength?, hu, hu']
  · simp only [List.cons_append, characterLength?, head?_append_cons y u u']

end Quote

/-- Where a `takeWhile` stops, the `dropWhile` goes on. -/
private theorem getElem?_length_takeWhile (p : Char → Bool) (cs : List Char) :
    cs[(cs.takeWhile p).length]? = (cs.dropWhile p).head? := by
  induction cs with
  | nil => rfl
  | cons c cs ih => by_cases hc : p c = true <;> simp [hc, ih]

namespace Heredoc

/-- Whether `d` may stand in a terminator between two quotes `c`. -/
def isInside (c d : Char) : Bool :=
  d ≠ c ∧ d ≠ '\n'

/-- Whether the text has the quote `c` on its first line. -/
def closes (c : Char) (cs : List Char) : Bool :=
  (cs.dropWhile (isInside c)).head? = some c

/-- A terminator between quotes is what stands between them, if the second one is on the same
    line. -/
theorem terminator?_of_isQuote (indented : Bool) {c : Char} (hc : isQuote c = true)
    (cs : List Char) :
    terminator? indented (c :: cs) =
      if closes c cs then
        some (cs.takeWhile (isInside c), (cs.takeWhile (isInside c)).length + 2)
      else none := by
  simp only [closes, ← getElem?_length_takeWhile, decide_eq_true_eq]
  simp only [terminator?, if_pos hc]
  rfl

/-- A character that ends the line or the terminator settles the question. -/
private theorem terminator?_stop (indented : Bool) {c d : Char} (hc : isQuote c = true)
    (hd : isInside c d = false) (y u u' : List Char) :
    terminator? indented (c :: (y ++ d :: u')) = terminator? indented (c :: (y ++ d :: u)) := by
  rw [terminator?_of_isQuote indented hc, terminator?_of_isQuote indented hc]
  simp only [closes, takeWhile_append_stop y _ hd, dropWhile_append_stop y _ hd,
    head?_append_cons _ u u']

section Quote

variable {q : Char} {u u' : List Char} (hq : isQuote q = true)
  (hcloses : ∀ c, isQuote c = true → closes c u' = closes c u) (hclosed : closes q u = true)

include hq hcloses hclosed

/-- Either both texts have the same terminator, or both have one that goes on past the quote. -/
private theorem terminator?_quote (indented : Bool) (x : List Char) :
    terminator? indented (x ++ q :: u') = terminator? indented (x ++ q :: u) ∨
      (terminator? indented (x ++ q :: u')).isSome = true ∧
        ∃ name n, terminator? indented (x ++ q :: u) = some (name, n) ∧ x.length < n := by
  cases x with
  | nil =>
    rw [List.nil_append, List.nil_append, terminator?_of_isQuote indented hq,
      terminator?_of_isQuote indented hq, hcloses q hq, if_pos hclosed, if_pos hclosed]
    exact .inr ⟨rfl, _, _, rfl, Nat.succ_pos _⟩
  | cons c y =>
    by_cases hc : isQuote c = true
    · by_cases hy : ∀ d ∈ y, isInside c d = true
      · -- The terminator goes on at least up to the quote.
        -- The quote closes the terminator if it is of the same kind, and stands inside it
        -- otherwise.
        by_cases hqc : q = c
        · exact .inl (terminator?_stop indented hc (by simp [isInside, hqc]) y u u')
        · have hgo : isInside c q = true := decide_eq_true ⟨hqc, ne_of_isQuote hq rfl⟩
          have hthrough : ∀ w, closes c (y ++ q :: w) = closes c w := by
            intro w
            rw [closes, List.dropWhile_append_of_pos hy, List.dropWhile_cons_of_pos hgo]
            rfl
          rw [List.cons_append, List.cons_append, terminator?_of_isQuote indented hc,
            terminator?_of_isQuote indented hc, hthrough, hthrough, hcloses c hc]
          split
          · refine .inr ⟨rfl, _, _, rfl, ?_⟩
            rw [List.takeWhile_append_of_pos hy, List.takeWhile_cons_of_pos hgo]
            simp only [List.length_append, List.length_cons]
            omega
          · exact .inl rfl
      · -- The terminator or the line ends before the quote.
        simp only [not_forall, Bool.not_eq_true] at hy
        obtain ⟨d, hmem, hd⟩ := hy
        obtain ⟨a, b, rfl⟩ := List.append_of_mem hmem
        have hstop := terminator?_stop indented hc hd a (b ++ q :: u) (b ++ q :: u')
        exact .inl (by simpa using hstop)
    · -- A terminator without quotes is a word.
      left
      have hstop : decide (Text.isAlphanumeric q = true ∨ q = '_') = false :=
        eq_false_of_isQuote (p := fun d => Text.isAlphanumeric d = true ∨ d = '_') hq (by decide)
      simp only [List.cons_append, terminator?, if_neg hc]
      rw [← List.cons_append, ← List.cons_append, takeWhile_append_stop _ _ hstop,
        takeWhile_append_stop _ _ hstop]

/-- Either both texts announce the same heredoc, or both announce one whose terminator goes on past
    the quote. -/
theorem opening?_quote (x : List Char) :
    opening? (x ++ q :: u') = opening? (x ++ q :: u) ∨
      (opening? (x ++ q :: u')).isSome = true ∧
        ∃ heredoc n, opening? (x ++ q :: u) = some (heredoc, n) ∧ x.length < n := by
  have hmark : ¬(q = '~' ∨ q = '-') := by
    rintro (h | h)
    · exact ne_of_isQuote hq rfl h
    · exact ne_of_isQuote hq rfl h
  have hplain := terminator?_quote hq hcloses hclosed false x
  cases x with
  | nil =>
    simp only [List.nil_append, opening?, if_neg hmark] at hplain ⊢
    rcases hplain with h | ⟨hsome, name, n, hn, hlt⟩
    · exact .inl (by rw [h])
    · exact .inr ⟨by rwa [Option.isSome_map], _, _, by rw [hn]; rfl, hlt⟩
  | cons c y =>
    simp only [List.cons_append, opening?] at hplain ⊢
    split
    · -- The squiggle or the dash counts among the characters of the opening.
      rcases terminator?_quote hq hcloses hclosed true y with h | ⟨hsome, name, n, hn, hlt⟩
      · exact .inl (by rw [h])
      · exact .inr ⟨by rwa [Option.isSome_map], _, _, by rw [hn]; rfl, Nat.succ_lt_succ hlt⟩
    · rcases hplain with h | ⟨hsome, name, n, hn, hlt⟩
      · exact .inl (by rw [h])
      · exact .inr ⟨by rwa [Option.isSome_map], _, _, by rw [hn]; rfl, hlt⟩

end Quote

end Heredoc

/-! ## Endless definitions -/

/-- How many closing and how many opening parentheses of a text have no partner in it, where `depth`
    opening ones come before it. -/
def unmatched : Nat → List Char → Nat × Nat
  | depth, [] => (0, depth)
  | depth, c :: cs =>
    if c = '(' then unmatched (depth + 1) cs
    else if c = ')' then
      if depth = 0 then ((unmatched 0 cs).1 + 1, (unmatched 0 cs).2) else unmatched (depth - 1) cs
    else unmatched depth cs

/-- A text that closes fewer parentheses than are open is passed over. -/
theorem dropParentheses_append_of_lt {d : Nat} (n : Nat) {y : List Char}
    (h : (unmatched n y).1 < d) (rest : List Char) :
    dropParentheses (d + n) (y ++ rest) =
      dropParentheses (d - (unmatched n y).1 + (unmatched n y).2) rest := by
  -- By induction along `unmatched`.  Of the parentheses that are open, `d` were so before the text
  -- and `n` were opened in it.
  fun_induction unmatched n y generalizing d with
  | case1 n => rfl
  | case2 n y ih =>
    rw [List.cons_append, dropParentheses, if_pos rfl]
    exact ih h
  | case3 y _ ih =>
    rw [List.cons_append, dropParentheses, if_neg (by decide), if_pos rfl, if_neg (by omega)]
    -- Nothing of the text itself is open, so this one closes one of the `d`.
    have hstep : d - ((unmatched 0 y).1 + 1) = d - 1 - (unmatched 0 y).1 := by omega
    rw [hstep, ← ih (by omega)]
    rfl
  | case4 n y _ hn ih =>
    rw [List.cons_append, dropParentheses, if_neg (by decide), if_pos rfl, if_neg (by omega),
      ← ih h, Nat.add_sub_assoc (by omega)]
  | case5 n c y hopen hclose ih =>
    rw [List.cons_append, dropParentheses, if_neg hopen, if_neg hclose]
    exact ih h

/-- A text that closes as many parentheses as are open is left after the last of them. -/
theorem dropParentheses_append_of_le {d : Nat} (hd : 0 < d) (n : Nat) {y : List Char}
    (h : d ≤ (unmatched n y).1) :
    ∃ y', y' <:+ y ∧ ∀ rest, dropParentheses (d + n) (y ++ rest) = y' ++ rest := by
  fun_induction unmatched n y generalizing d with
  | case1 n => exact absurd h (by omega)
  | case2 n y ih =>
    obtain ⟨y', hy', hdrop⟩ := ih hd h
    refine ⟨y', hy'.trans (List.suffix_cons _ y), fun rest => ?_⟩
    rw [List.cons_append, dropParentheses, if_pos rfl]
    exact hdrop rest
  | case3 y _ ih =>
    -- The last one that was open is closed here, or there are others.
    by_cases hone : d = 1
    · subst hone
      exact ⟨y, List.suffix_cons _ y, fun rest => rfl⟩
    · obtain ⟨y', hy', hdrop⟩ := ih (d := d - 1) (by omega) (by omega)
      refine ⟨y', hy'.trans (List.suffix_cons _ y), fun rest => ?_⟩
      rw [List.cons_append, dropParentheses, if_neg (by decide), if_pos rfl, if_neg (by omega)]
      exact hdrop rest
  | case4 n y _ hn ih =>
    obtain ⟨y', hy', hdrop⟩ := ih hd h
    refine ⟨y', hy'.trans (List.suffix_cons _ y), fun rest => ?_⟩
    rw [List.cons_append, dropParentheses, if_neg (by decide), if_pos rfl, if_neg (by omega),
      Nat.add_sub_assoc (by omega)]
    exact hdrop rest
  | case5 n c y hopen hclose ih =>
    obtain ⟨y', hy', hdrop⟩ := ih hd h
    refine ⟨y', hy'.trans (List.suffix_cons _ y), fun rest => ?_⟩
    rw [List.cons_append, dropParentheses, if_neg hopen, if_neg hclose]
    exact hdrop rest

/-- Whether a text, with the spaces at its start taken away, starts with the equals sign of an
    endless definition. -/
def startsBody (cs : List Char) : Bool :=
  match cs.dropWhile isSpace with
  | '=' :: rest => rest.head?.all fun c => c ≠ '=' ∧ c ≠ '~' ∧ c ≠ '>'
  | _ => false

/-- After parameters, the body decides. -/
private theorem isEndless_of_parameters {cs y : List Char} (h : cs.dropWhile isSpace = '(' :: y) :
    isEndless cs = startsBody (dropParentheses 1 y) := by
  rw [isEndless, dropParameters, h]
  rfl

/-- Without parameters the body comes at once. -/
private theorem isEndless_of_no_parameters {cs : List Char}
    (h : (cs.dropWhile isSpace).head? ≠ some '(') : isEndless cs = startsBody cs := by
  have hdrop : dropParameters cs = cs.dropWhile isSpace := by
    rw [dropParameters]
    split
    · next rest hrest => simp [hrest] at h
    · rfl
  rw [isEndless, hdrop]
  rfl

section Quote

variable {q : Char} (hq : isQuote q = true) (x u u' : List Char)

include hq

/-- Whether a body starts is settled at a quote, which is no equals sign. -/
private theorem startsBody_quote : startsBody (x ++ q :: u') = startsBody (x ++ q :: u) := by
  have hspace : isSpace q = false := eq_false_of_isQuote hq (by decide)
  have hequals : q ≠ '=' := ne_of_isQuote hq rfl
  rw [startsBody, startsBody, dropWhile_append_stop x u' hspace, dropWhile_append_stop x u hspace]
  cases x.dropWhile isSpace with
  | nil => simp [hequals]
  | cons d y =>
    by_cases hd : d = '='
    · simp only [hd, List.cons_append, head?_append_cons y u u']
    · simp [hd]

/-- Whether a definition is endless is settled at a quote, unless its parameters are still open
    there. -/
theorem isEndless_quote
    (h : ∀ y, x.dropWhile isSpace = '(' :: y → (unmatched 0 y).1 = 0 → ∀ d, 0 < d →
      startsBody (dropParentheses d (q :: u')) = startsBody (dropParentheses d (q :: u))) :
    isEndless (x ++ q :: u') = isEndless (x ++ q :: u) := by
  have hspace : isSpace q = false := eq_false_of_isQuote hq (by decide)
  have hparen : q ≠ '(' := ne_of_isQuote hq rfl
  have hdrop : ∀ w, (x ++ q :: w).dropWhile isSpace = x.dropWhile isSpace ++ q :: w :=
    fun w => dropWhile_append_stop x w hspace
  by_cases hx : ∃ y, x.dropWhile isSpace = '(' :: y
  · obtain ⟨y, hy⟩ := hx
    rw [isEndless_of_parameters (y := y ++ q :: u') (by rw [hdrop, hy]; rfl),
      isEndless_of_parameters (y := y ++ q :: u) (by rw [hdrop, hy]; rfl)]
    by_cases hopen : (unmatched 0 y).1 = 0
    · -- The parameters are open where the quote stands.
      have hlt : (unmatched 0 y).1 < 1 := by omega
      have hpast := dropParentheses_append_of_lt 0 hlt
      rw [hpast, hpast]
      exact h y hy hopen _ (by omega)
    · -- They are closed before it, and the rest of the text up to the quote is looked at.
      obtain ⟨y', -, hpast⟩ := dropParentheses_append_of_le Nat.one_pos 0
        (Nat.one_le_iff_ne_zero.mpr hopen)
      rw [hpast, hpast]
      exact startsBody_quote hq y' u u'
  · have hhead : ∀ w, ((x ++ q :: w).dropWhile isSpace).head? ≠ some '(' := by
      intro w
      rw [hdrop]
      cases hd : x.dropWhile isSpace with
      | nil => simpa using hparen
      | cons c y =>
        rintro hc
        obtain rfl : c = '(' := Option.some.inj hc
        exact hx ⟨y, hd⟩
    rw [isEndless_of_no_parameters (hhead u'), isEndless_of_no_parameters (hhead u),
      startsBody_quote hq]

end Quote

/-- Whether the text starts with a `def` and ends between the parentheses that come first after it
    on its line. -/
def opensParameters (cs : List Char) : Bool :=
  "def".toList.isPrefixOf cs && !(cs.drop 3).head?.any isWordChar &&
    match (cs.drop 3).dropWhile fun c => c ≠ '(' ∧ c ≠ '\n' with
    | '(' :: y => (unmatched 0 y).1 = 0
    | _ => false

/-- Whether the text ends between the parentheses that come first after some `def` on its line. -/
def inParameters : List Char → Bool
  | [] => false
  | c :: cs => opensParameters (c :: cs) || inParameters cs

/-- A `def`, what is neither a parenthesis nor a newline, and parentheses that are still open at the
    end. -/
theorem inParameters_of_suffix {before v y : List Char}
    (h : "def".toList ++ (v ++ '(' :: y) <:+ before)
    (hword : (v ++ '(' :: y).head?.any isWordChar = false) (hv : ∀ c ∈ v, c ≠ '(' ∧ c ≠ '\n')
    (hy : (unmatched 0 y).1 = 0) : inParameters before = true := by
  have hdrop : (v ++ '(' :: y).dropWhile (fun c => c ≠ '(' ∧ c ≠ '\n') = '(' :: y := by
    rw [List.dropWhile_append_of_pos fun c hc => decide_eq_true (hv c hc)]
    rfl
  have hopens : opensParameters ("def".toList ++ (v ++ '(' :: y)) = true := by
    have hrest : ("def".toList ++ (v ++ '(' :: y)).drop 3 = v ++ '(' :: y := rfl
    rw [opensParameters, hrest, hdrop, hword]
    simp [hy]
  -- By induction on the characters before the `def`.
  induction before with
  | nil => simp at h
  | cons c cs ih =>
    rw [inParameters]
    rcases List.suffix_cons_iff.mp h with heq | hsuffix
    · rw [← heq, hopens, Bool.true_or]
    · rw [ih hsuffix, Bool.or_true]

/-- A call with parentheses is no definition, even where its name starts like one. -/
example : inParameters "define_method(:f, ".toList = false := by decide

/-! ## What comes before the parameters -/

/-- The characters of a prefix that is found at the start of a text. -/
private theorem take_length_of_isPrefixOf {name cs : List Char} (h : name.isPrefixOf cs = true) :
    cs.take name.length = name :=
  (List.prefix_iff_eq_take.mp (List.isPrefixOf_iff_prefix.mp h)).symm

/-- A word has neither a parenthesis nor a newline. -/
private theorem ne_of_mem_word {cs : List Char} {c : Char} (h : c ∈ cs.take (wordLength cs)) :
    c ≠ '(' ∧ c ≠ '\n' := by
  rw [wordLength, ← List.prefix_iff_eq_take.mp (List.takeWhile_prefix isWordChar)] at h
  have hword := List.mem_takeWhile_imp h
  constructor <;> rintro rfl <;> exact absurd hword (by decide)

/-- A word with the mark that follows it has neither a parenthesis nor a newline. -/
private theorem ne_of_mem_marked_word {cs rest : List Char} {c d : Char}
    (hd : cs.drop (wordLength cs) = d :: rest) (hmark : d ≠ '(' ∧ d ≠ '\n')
    (h : c ∈ cs.take (wordLength cs + 1)) : c ≠ '(' ∧ c ≠ '\n' := by
  rw [List.take_add, hd, List.mem_append] at h
  rcases h with h | h
  · exact ne_of_mem_word h
  · obtain rfl : c = d := by simpa using h
    exact hmark

/-- A receiver has neither a parenthesis nor a newline. -/
theorem ne_of_mem_receiver (cs : List Char) {c : Char} (h : c ∈ cs.take (receiverLength cs)) :
    c ≠ '(' ∧ c ≠ '\n' := by
  unfold receiverLength at h
  -- The receiver is `self`, or a word, or there is none.
  split at h
  · next hself =>
    have hall : "self.".toList.all (fun d => d ≠ '(' ∧ d ≠ '\n') = true := by decide
    have htake : cs.take 5 = "self.".toList := take_length_of_isPrefixOf hself
    rw [htake] at h
    exact of_decide_eq_true (List.all_eq_true.mp hall c h)
  split at h
  · dsimp only at h
    split at h
    · next rest hrest =>
      split at h
      · simp at h
      · exact ne_of_mem_marked_word hrest (by decide) h
    · simp at h
  · simp at h

/-- The name of a definition has neither a parenthesis nor a newline. -/
theorem ne_of_mem_methodName (cs : List Char) {c : Char}
    (h : c ∈ cs.take (methodNameLength cs)) : c ≠ '(' ∧ c ≠ '\n' := by
  unfold methodNameLength at h
  split at h
  · dsimp only at h
    split at h
    · next rest hrest => exact ne_of_mem_marked_word hrest (by decide) h
    · next rest hrest => exact ne_of_mem_marked_word hrest (by decide) h
    · next rest hrest => exact ne_of_mem_marked_word hrest (by decide) h
    · exact ne_of_mem_word h
  · -- The name of an operator, of which none has a parenthesis.
    unfold operatorLength at h
    split at h
    · next name hname =>
      have hall : operatorNames.all (fun name => name.toList.all fun d => d ≠ '(' ∧ d ≠ '\n') =
          true := by decide
      have hfound : name.toList.isPrefixOf cs = true := by simpa using List.find?_some hname
      rw [← String.length_toList, take_length_of_isPrefixOf hfound] at h
      have hname := List.all_eq_true.mp hall name (List.mem_of_find?_eq_some hname)
      exact of_decide_eq_true (List.all_eq_true.mp hname c h)
    · simp at h

/-- The spaces, the receiver and the name of a definition have neither a parenthesis nor a newline,
    whatever text `w` they were found in front of. -/
theorem ne_of_mem_heading {v w : List Char} {s m n : Nat} (hs : spacesLength v = s)
    (hm : receiverLength (v.drop s ++ w) = m) (hn : methodNameLength (v.drop (s + m) ++ w) = n)
    (hle : s + m + n ≤ v.length) {c : Char} (hc : c ∈ v.take (s + m + n)) :
    c ≠ '(' ∧ c ≠ '\n' := by
  rw [List.take_add, List.take_add, List.mem_append, List.mem_append] at hc
  -- The three parts in turn.  What `w` adds is beyond each of them.
  rcases hc with (hc | hc) | hc
  · rw [← hs, spacesLength, ← List.prefix_iff_eq_take.mp (List.takeWhile_prefix isSpace)] at hc
    have hspace := List.mem_takeWhile_imp hc
    constructor <;> rintro rfl <;> exact absurd hspace (by decide)
  · apply ne_of_mem_receiver (v.drop s ++ w)
    rw [hm, List.take_append_of_le_length (by rw [List.length_drop]; omega)]
    exact hc
  · apply ne_of_mem_methodName (v.drop (s + m) ++ w)
    rw [hn, List.take_append_of_le_length (by rw [List.length_drop]; omega)]
    exact hc

end ScopeTags.Source
