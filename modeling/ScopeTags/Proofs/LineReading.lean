import ScopeTags.Proofs.Program
import ScopeTags.Proofs.ReadingEffect

/-!
# Reading within a line

What a reader does with the pieces of a line.  A `Mode` holds what a reader remembers of the text
before it, as far as programs depend on it; `Reader.Stands` says that a reader is in a mode at a
line and column with a given text ahead; `Passes` says that such a reader goes over a text, brings
up given tokens and is in another mode after it.

A piece is always passed with the text after it in view (`next`), since a word ends only where no
character that could belong to it follows.

## Key results

- `Passes.append`: what passes in two parts passes as a whole.
- `passes_identifier`, `passes_constant`, `passes_keyword`, `passes_module`, `passes_class`,
  `passes_singletonClass`, `passes_end`, `passes_definition`: the words of a line.
- `Reader.Stands.newline`: the end of a line.
-/

namespace ScopeTags.Source

/-! ## Characters -/

/-- The characters of plain words are those of ASCII. -/
private theorem toNat_lt_of_isPlainWordChar {c : Char} (hc : isPlainWordChar c = true) :
    c.toNat < 128 := by
  -- The small letters are the last of the word characters in the order of code points.
  have hle : c.val ≤ 'z'.val := by
    simp only [isPlainWordChar, Char.isAlphanum, Bool.or_eq_true, decide_eq_true_eq] at hc
    rcases hc with (hc | hc) | rfl
    · rcases Bool.or_eq_true_iff.mp hc with hc | hc
      · have hc : 'A'.val ≤ c.val ∧ c.val ≤ 'Z'.val := of_decide_eq_true hc
        exact UInt32.le_trans hc.2 (by decide)
      · have hc : (decide ('a'.val ≤ c.val) && decide (c.val ≤ 'z'.val)) = true := hc
        exact of_decide_eq_true (Bool.and_eq_true_iff.mp hc).2
    · have hc : (decide ('0'.val ≤ c.val) && decide (c.val ≤ '9'.val)) = true := hc
      exact UInt32.le_trans (of_decide_eq_true (Bool.and_eq_true_iff.mp hc).2) (by decide)
    · decide
  exact Nat.lt_of_le_of_lt (UInt32.le_iff_toNat_le.mp hle) (by decide)

/-- The classes that a character of a plain word is in. -/
theorem classes_of_isPlainWordChar {c : Char} (hc : isPlainWordChar c = true) :
    (isWordChar c = true ∧ Text.isBlank c = false ∧ isQuote c = false) ∧
      (Text.isAlphanumeric c = true ∨ c = '_') ∧
      (c.isLower = true → Text.isUppercase c = false) ∧
      (c.isUpper = true → Text.isUppercase c = true ∧ Text.isLetter c = true) := by
  -- All at once, as there are only so many characters to look at.
  have hall : ∀ n < 128, isPlainWordChar (Char.ofNat n) = true →
      (isWordChar (Char.ofNat n) = true ∧ Text.isBlank (Char.ofNat n) = false ∧
        isQuote (Char.ofNat n) = false) ∧
      (Text.isAlphanumeric (Char.ofNat n) = true ∨ Char.ofNat n = '_') ∧
      ((Char.ofNat n).isLower = true → Text.isUppercase (Char.ofNat n) = false) ∧
      ((Char.ofNat n).isUpper = true →
        Text.isUppercase (Char.ofNat n) = true ∧ Text.isLetter (Char.ofNat n) = true) := by
    decide +kernel
  have hclasses := hall c.toNat (toNat_lt_of_isPlainWordChar hc)
  rw [Char.ofNat_toNat] at hclasses
  exact hclasses hc

/-- A character of a plain word may stand in any word. -/
private theorem isWordChar_of_isPlainWordChar {c : Char} (h : isPlainWordChar c = true) :
    isWordChar c = true :=
  (classes_of_isPlainWordChar h).1.1

/-- A word character is none of the others. -/
theorem ne_of_isWordChar {c d : Char} (hc : isWordChar c = true) (hd : isWordChar d = false) :
    c ≠ d := by
  rintro rfl
  rw [hc] at hd
  cases hd

/-- A word character is no space. -/
private theorem not_isSpace_of_isWordChar {c : Char} (h : isWordChar c = true) :
    isSpace c = false := by
  simp [isSpace, ne_of_isWordChar (d := ' ') h (by decide),
    ne_of_isWordChar (d := '\t') h (by decide)]

/-- What a word may start with may stand in it. -/
theorem isWordChar_of_isWordStart {c : Char} (h : isWordStart c = true) : isWordChar c = true := by
  simp only [isWordStart, isWordChar, Char.isAlphanum, Bool.or_eq_true] at h ⊢
  rcases h with (h | h) | h <;> simp [h]

/-- A word has a first character. -/
theorem exists_cons_of_isWordFrom {first : Char → Bool} {w : List Char}
    (h : isWordFrom first w = true) :
    ∃ c cs, w = c :: cs ∧ first c = true ∧ ∀ d ∈ c :: cs, isPlainWordChar d = true := by
  cases w with
  | nil => cases h
  | cons c cs =>
    simp only [isWordFrom, List.head?_cons, Option.any_some, Bool.and_eq_true, List.all_eq_true]
      at h
    exact ⟨c, cs, rfl, h⟩

/-- All characters of a word are word characters. -/
theorem isWordChar_of_mem {first : Char → Bool} {w : List Char} (h : isWordFrom first w = true) :
    ∀ c ∈ w, isWordChar c = true := by
  obtain ⟨c, cs, rfl, -, hall⟩ := exists_cons_of_isWordFrom h
  exact fun d hd => isWordChar_of_isPlainWordChar (hall d hd)

/-! ## Where words end -/

/-- Whether a word before `next` ends there. -/
def endsWord (next : List Char) : Bool :=
  next.head?.all fun c => !isWordChar c && c ≠ '?' && c ≠ '!'

/-- Whether a word before `next` ends there, and is neither a label nor a part of a path. -/
def endsPath (next : List Char) : Bool :=
  endsWord next && next.head? ≠ some ':'

/-- Word characters are read up to the first that is none. -/
private theorem takeWhile_isWordChar_append {w next : List Char} (hw : ∀ c ∈ w, isWordChar c = true)
    (hn : next.head?.all (fun c => !isWordChar c) = true) :
    (w ++ next).takeWhile isWordChar = w := by
  rw [List.takeWhile_append_of_pos hw]
  cases next with
  | nil => simp
  | cons c cs =>
    have hc : isWordChar c = false := by simpa using hn
    simp [hc]

/-- Where a word ends, no word character follows. -/
private theorem not_isWordChar_of_endsWord {next : List Char} (h : endsWord next = true) :
    next.head?.all (fun c => !isWordChar c) = true := by
  cases next with
  | nil => rfl
  | cons c cs =>
    simp only [endsWord, List.head?_cons, Option.all_some, Bool.and_eq_true] at h ⊢
    exact h.1.1

/-- The word that is read is the one that stands there. -/
private theorem wordAt_append {w next : List Char} (hw : ∀ c ∈ w, isWordChar c = true)
    (hn : endsWord next = true) : wordAt (w ++ next) = w := by
  rw [wordAt, takeWhile_isWordChar_append hw (not_isWordChar_of_endsWord hn), List.drop_left]
  cases next with
  | nil => rfl
  | cons c cs =>
    have hmark : ¬(c = '?' ∨ c = '!') := by
      rintro (rfl | rfl)
      · exact absurd hn (by simp [endsWord])
      · exact absurd hn (by simp [endsWord])
    exact if_neg fun h => hmark h.1

/-- Where a path ends, so does its last word. -/
private theorem endsWord_of_endsPath {next : List Char} (h : endsPath next = true) :
    endsWord next = true :=
  (Bool.and_eq_true_iff.mp h).1

/-- No colon follows. -/
private theorem head?_ne_of_endsPath {next : List Char} (h : endsPath next = true) :
    next.head? ≠ some ':' :=
  of_decide_eq_true (Bool.and_eq_true_iff.mp h).2

/-- A word whose path ends here is no label. -/
private theorem isLabelColon_of_endsPath {next : List Char} (h : endsPath next = true) :
    isLabelColon next = false := by
  have hc := head?_ne_of_endsPath h
  unfold isLabelColon
  split <;> simp_all

/-- A path does not go on where it ends. -/
private theorem pathLength_of_endsPath {next : List Char} (h : endsPath next = true) :
    pathLength next = 0 := by
  have hc := head?_ne_of_endsPath h
  rw [pathLength.eq_def]
  split <;> simp_all

/-! ## Standing at a place -/

/-- What a reader remembers of the text before it. -/
structure Mode where
  /-- Whether an operand is expected. -/
  value : Bool := true
  /-- Whether a dot came just before. -/
  dot : Bool := false
  /-- Whether a `do` on this line belongs to the header of a loop. -/
  loop : Bool := false
  blocks : List Block
  heredocs : List Heredoc := []

namespace Reader

/-- The reader is in mode `m` at a line and column, with the text `rest` ahead and no endless
    definition open. -/
structure Stands (r : Reader) (line column : Nat) (m : Mode) (rest : List Char) : Prop where
  rest_eq : r.rest = rest
  line_eq : r.line = line
  column_eq : r.column = column
  value_eq : r.valueExpected = m.value
  dot_eq : r.afterDot = m.dot
  /-- The header of a loop on an earlier line is forgotten without a trace. -/
  loop_eq : if m.loop then r.loopLine = some line else ∀ l, r.loopLine = some l → l < line
  blocks_eq : r.blocks = m.blocks
  heredocs_eq : r.heredocs = m.heredocs
  endless_eq : r.endless = []

/-- At the start no block is open, and an operand is expected. -/
theorem start_stands (cs : List Char) : (start cs).Stands 1 0 { blocks := [] } cs := by
  constructor <;> first | rfl | simp [start]

namespace Stands

variable {r : Reader} {line column : Nat} {m : Mode} {text rest next : List Char}

/-- A token that is read here has this place. -/
theorem location_eq (h : r.Stands line column m rest) :
    r.location = { line, column := column + 1 } := by
  rw [Place.location, h.line_eq, h.column_eq]

/-- The reader hops over some text. -/
theorem hop (h : r.Stands line column m (text ++ next)) :
    (r.hop text.length).Stands line (column + text.length) m next where
  rest_eq := by rw [rest_hop, h.rest_eq, List.drop_left]
  line_eq := h.line_eq
  column_eq := by
    change r.column + (r.rest.take text.length).length = _
    rw [h.rest_eq, List.take_left, h.column_eq]
  value_eq := h.value_eq
  dot_eq := h.dot_eq
  loop_eq := h.loop_eq
  blocks_eq := h.blocks_eq
  heredocs_eq := h.heredocs_eq
  endless_eq := h.endless_eq

/-- An operand is complete. -/
theorem markValue (h : r.Stands line column m rest) :
    r.markValue.Stands line column { m with value := false, dot := false } rest :=
  { h with value_eq := rfl, dot_eq := rfl }

/-- An operand is expected. -/
theorem markOperator (h : r.Stands line column m rest) :
    r.markOperator.Stands line column { m with value := true, dot := false } rest :=
  { h with value_eq := rfl, dot_eq := rfl }

/-- A name is expected. -/
theorem markDot (h : r.Stands line column m rest) :
    r.markDot.Stands line column { m with value := true, dot := true } rest :=
  { h with value_eq := rfl, dot_eq := rfl }

/-- A block is opened. -/
theorem push (h : r.Stands line column m rest) (b : Block) :
    (r.push b).Stands line column { m with blocks := b :: m.blocks } rest :=
  { h with blocks_eq := congrArg (b :: ·) h.blocks_eq }

/-- A reader remembers no header of a loop on a later line. -/
private theorem loopLine_le (h : r.Stands line column m rest) {l : Nat} (hl : r.loopLine = some l) :
    l ≤ line := by
  have hloop := h.loop_eq
  split at hloop
  · rw [hl, Option.some.injEq] at hloop
    exact Nat.le_of_eq hloop
  · exact Nat.le_of_lt (hloop l hl)

/-- A `do` on this line belongs to a loop just where the mode says so. -/
private theorem loopLine_eq_iff (h : r.Stands line column m rest) :
    r.loopLine = some r.line ↔ m.loop = true := by
  have hloop := h.loop_eq
  rw [h.line_eq]
  split at hloop
  · next hm => simp [hm, hloop]
  · next hm =>
    exact ⟨fun hl => absurd (hloop line hl) (Nat.lt_irrefl line), fun hm' => absurd hm' hm⟩

end Stands

/-! ## One step -/

/-- What starts like a word is read as one. -/
theorem read_of_isWordStart {r : Reader} {c : Char} (cs : List Char) (hc : isWordStart c = true) :
    r.read c cs = r.readWord := by
  have hword := isWordChar_of_isWordStart hc
  have hgap : ¬isGap c = true := by
    intro hg
    simp only [isGap, List.mem_cons, List.not_mem_nil, or_false, decide_eq_true_eq] at hg
    rcases hg with rfl | rfl | rfl | rfl | rfl <;> exact absurd hword (by decide)
  rw [read, if_neg (ne_of_isWordChar hword (by decide)), if_neg hgap,
    if_neg fun h => ne_of_isWordChar hword (by decide) h.1,
    if_neg (ne_of_isWordChar hword (by decide)), if_pos hc]

end Reader

/-! ## Passing over text -/

/-- A reader in mode `m` goes over `text` before `next`, brings up `tokens` and is in mode `m'`. -/
def Passes (line column : Nat) (m : Mode) (text : List Char) (tokens : List Token) (m' : Mode)
    (next : List Char) : Prop :=
  ∀ r : Reader, r.Stands line column m (text ++ next) →
    ∃ r' : Reader, r'.Stands line (column + text.length) m' next ∧
      r.events = tokens.map .token ++ r'.events

section

variable {line column : Nat} {m m₁ m' : Mode} {text u next : List Char} {tokens us : List Token}

/-- Nothing is passed. -/
theorem Passes.nil : Passes line column m [] [] m next :=
  fun r h => ⟨r, h, rfl⟩

/-- What passes in two parts passes as a whole. -/
theorem Passes.append (h : Passes line column m text tokens m₁ (u ++ next))
    (h' : Passes line (column + text.length) m₁ u us m' next) :
    Passes line column m (text ++ u) (tokens ++ us) m' next := by
  intro r hr
  rw [List.append_assoc] at hr
  obtain ⟨r₁, hr₁, he₁⟩ := h r hr
  obtain ⟨r', hr', he'⟩ := h' r₁ hr₁
  refine ⟨r', ?_, ?_⟩
  · rwa [List.length_append, ← Nat.add_assoc]
  · rw [he₁, he', List.map_append, List.append_assoc]

/-- A piece and then the others of its line. -/
theorem Passes.cons {p : Piece} {pieces : List Piece}
    (h : Passes line column m p.text (p.token?.map (· { line, column := column + 1 })).toList m₁
      (Piece.textOf pieces ++ next))
    (h' : Passes line (column + p.text.length) m₁ (Piece.textOf pieces)
      (Piece.tokensOf line (column + p.text.length) pieces) m' next) :
    Passes line column m (Piece.textOf (p :: pieces)) (Piece.tokensOf line column (p :: pieces)) m'
      next :=
  h.append h'

/-- A piece at the end of its line. -/
theorem Passes.last {p : Piece}
    (h : Passes line column m p.text (p.token?.map (· { line, column := column + 1 })).toList m'
      next) :
    Passes line column m (Piece.textOf [p]) (Piece.tokensOf line column [p]) m' next :=
  Passes.cons h Passes.nil

/-- Text that is passed in one step. -/
theorem Passes.of_read {c : Char} {cs : List Char} (hc : column ≠ 0 ∨ c ≠ '_' ∧ c ≠ '=')
    (h : ∀ r : Reader, r.Stands line column m (c :: cs ++ next) →
      ∃ r' : Reader, r'.Stands line (column + (c :: cs).length) m' next ∧
        r.read c (cs ++ next) = (tokens.map .token, r')) :
    Passes line column m (c :: cs) tokens m' next := by
  intro r hr
  obtain ⟨r', hr', he⟩ := h r hr
  rw [← hr.column_eq] at hc
  have hstep := (Reader.step?_eq_read hr.rest_eq hc).trans (congrArg some he)
  exact ⟨r', hr', Reader.events_of_step? hstep⟩

/-! ## Blanks and signs -/

/-- A space or a tab. -/
theorem passes_space {c : Char} (hc : isSpace c = true) : Passes line column m [c] [] m next := by
  simp only [isSpace, Bool.or_eq_true, decide_eq_true_eq] at hc
  refine Passes.of_read (Or.inr ?_) fun r hr => ⟨_, hr.hop, ?_⟩
  · rcases hc with rfl | rfl <;> decide
  · rcases hc with rfl | rfl <;> rfl

/-- The indentation of a line. -/
theorem passes_indent (indent : Indent) : Passes line column m indent.val [] m next := by
  obtain ⟨cs, hcs⟩ := indent
  induction cs generalizing column with
  | nil => exact Passes.nil
  | cons c cs ih =>
    obtain ⟨hc, hcs'⟩ : isSpace c = true ∧ cs.all isSpace = true := by simpa using hcs
    exact (passes_space hc).append (ih hcs')

/-- Signs that are operators wherever they stand in a program. -/
theorem passes_operator {c : Char} (hc : c = '|' ∨ c = '=' ∧ column ≠ 0) :
    Passes line column m [c] [] { m with value := true, dot := false } next := by
  refine Passes.of_read ?_ fun r hr => ⟨_, hr.hop.markOperator, ?_⟩
  · rcases hc with rfl | ⟨-, h⟩
    · exact Or.inr (by decide)
    · exact Or.inl h
  · rcases hc with rfl | ⟨rfl, -⟩ <;> rfl

/-- The dot of a call. -/
theorem passes_dot {c : Char} (hc : c ≠ '.') :
    Passes line column m ['.'] [] { m with value := true, dot := true } (c :: next) := by
  refine Passes.of_read (Or.inr (by decide)) fun r hr => ⟨_, hr.hop.markDot, ?_⟩
  change r.readDot (c :: next) = _
  unfold Reader.readDot
  split <;> simp_all [Reader.skipDot]

/-- A less-than sign is an operator where it announces no heredoc. -/
theorem passes_lessThan (hn : ∀ rest, next = '<' :: rest → Heredoc.opening? rest = none) :
    Passes line column m ['<'] [] { m with value := true, dot := false } next := by
  refine Passes.of_read (Or.inr (by decide)) fun r hr => ⟨_, hr.hop.markOperator, ?_⟩
  change r.readLessThan next = _
  unfold Reader.readLessThan
  split
  · next rest => rw [hn rest rfl]; rfl
  · rfl

/-! ## Identifiers and constants -/

/-- A word is read in one step, whatever it is. -/
private theorem Passes.of_readWord {w : List Char} {first : Char → Bool}
    (hw : isWordFrom first w = true) (hfirst : ∀ c, first c = true → isWordStart c = true ∧ c ≠ '_')
    (h : ∀ r : Reader, r.Stands line column m (w ++ (u ++ next)) →
      ∃ r' : Reader, r'.Stands line (column + (w ++ u).length) m' next ∧
        r.readWord = (tokens.map .token, r')) :
    Passes line column m (w ++ u) tokens m' next := by
  obtain ⟨c, cs, rfl, hf, -⟩ := exists_cons_of_isWordFrom hw
  obtain ⟨hstart, hne⟩ := hfirst c hf
  refine Passes.of_read (Or.inr ⟨hne, ?_⟩) fun r hr => ?_
  · exact ne_of_isWordChar (isWordChar_of_isWordStart hstart) (by decide)
  · rw [Reader.read_of_isWordStart _ hstart]
    exact h r (List.append_assoc (c :: cs) u next ▸ hr)

/-- A letter starts a word, and is no underscore. -/
private theorem isWordStart_of_isAlpha {c : Char} (h : c.isAlpha = true) :
    isWordStart c = true ∧ c ≠ '_' := by
  refine ⟨by simp [isWordStart, h], ?_⟩
  rintro rfl
  exact absurd h (by decide)

/-- A small letter may start a word. -/
private theorem isWordStart_of_isLower {c : Char} (h : c.isLower = true) :
    isWordStart c = true ∧ c ≠ '_' :=
  isWordStart_of_isAlpha (Bool.or_eq_true_iff.mpr (Or.inr h))

/-- A capital may start a word. -/
theorem isWordStart_of_isUpper {c : Char} (h : c.isUpper = true) :
    isWordStart c = true ∧ c ≠ '_' :=
  isWordStart_of_isAlpha (Bool.or_eq_true_iff.mpr (Or.inl h))

/-- A word with a small letter in front does not start with a capital. -/
private theorem startsUppercase_of_isLower {w : List Char} (next : List Char)
    (h : isWordFrom Char.isLower w = true) : startsUppercase (w ++ next) = false := by
  obtain ⟨c, cs, rfl, hc, hall⟩ := exists_cons_of_isWordFrom h
  exact (classes_of_isPlainWordChar (hall c List.mem_cons_self)).2.2.1 hc

/-- A capital of ASCII is one. -/
private theorem isUppercase_of_isUpper {c : Char} (hp : isPlainWordChar c = true)
    (h : c.isUpper = true) : Text.isUppercase c = true :=
  ((classes_of_isPlainWordChar hp).2.2.2 h).1

/-- Programs do not depend on whether an identifier came before. -/
theorem Reader.Stands.afterIdentifier {r : Reader} {rest : List Char} (b : Bool)
    (h : r.Stands line column m rest) :
    { r with afterIdentifier := b }.Stands line column m rest :=
  { h with }

/-- An identifier, which after a dot may be spelled like a keyword. -/
theorem passes_identifier {w : List Char} (hw : isWordFrom Char.isLower w = true)
    (hk : m.dot = true ∨ String.ofList w ∉ keywords) (hn : endsPath next = true) :
    Passes line column m w [Token.identifier (String.ofList w) { line, column := column + 1 }]
      { m with value := false, dot := false } next := by
  rw [← List.append_nil w]
  refine Passes.of_readWord hw (fun _ => isWordStart_of_isLower) fun r hr => ?_
  rw [List.append_nil]
  have hword : wordAt r.rest = w := by
    rw [hr.rest_eq]
    exact wordAt_append (isWordChar_of_mem hw) (endsWord_of_endsPath hn)
  have hdrop : r.rest.drop w.length = next := by rw [hr.rest_eq, List.drop_left]; rfl
  have hupper : startsUppercase w = false := by
    simpa using startsUppercase_of_isLower [] hw
  have hread : r.readWord = r.takeIdentifier w.length := by
    unfold Reader.readWord
    simp only [hword, hdrop, hupper, isLabelColon_of_endsPath hn, hr.dot_eq, Bool.false_eq_true,
      false_and, if_false]
    -- A word after a dot is no keyword, and the others are none by assumption.
    cases hdot : m.dot with
    | true => simp
    | false =>
      have hk : String.ofList w ∉ keywords := hk.resolve_left (by simp [hdot])
      simp [hk]
  refine ⟨_, (hr.hop.markValue).afterIdentifier true, ?_⟩
  rw [hread, Reader.takeIdentifier, hr.rest_eq, List.take_left, hr.location_eq]
  rfl

/-- A variable, which is never a keyword. -/
theorem passes_variable (x : Variable) (hn : endsPath next = true) :
    Passes line column m x.val
      [Token.identifier (String.ofList x.val) { line, column := column + 1 }]
      { m with value := false, dot := false } next := by
  obtain ⟨w, hw⟩ := x
  simp only [isVariable, Bool.and_eq_true, decide_eq_true_eq] at hw
  exact passes_identifier hw.1 (Or.inr hw.2) hn

/-- The segments of a path after its first one. -/
private theorem pathLength_append (more : List (TextOf isCapitalized)) (hn : endsPath next = true) :
    pathLength (more.flatMap (fun segment => ':' :: ':' :: segment.val) ++ next) =
      (more.flatMap fun segment => ':' :: ':' :: segment.val).length := by
  induction more with
  | nil => exact pathLength_of_endsPath hn
  | cons segment more ih =>
    obtain ⟨s, hs⟩ := segment
    obtain ⟨c, cs, rfl, hc, hall⟩ := exists_cons_of_isWordFrom hs
    -- A segment ends at the colons of the next one, or where the path ends.
    have hstop : (more.flatMap (fun segment => ':' :: ':' :: segment.val) ++ next).head?.all
        (fun c => !isWordChar c) = true := by
      cases more with
      | nil => exact not_isWordChar_of_endsWord (endsWord_of_endsPath hn)
      | cons => rfl
    have hlength : wordLength (c :: cs ++ (more.flatMap (fun s => ':' :: ':' :: s.val) ++ next)) =
        (c :: cs).length := by
      rw [wordLength, takeWhile_isWordChar_append (isWordChar_of_mem hs) hstop]
    rw [List.cons_append] at hlength
    simp only [List.flatMap_cons, List.cons_append, List.append_assoc]
    rw [pathLength, if_pos (isUppercase_of_isUpper (hall c List.mem_cons_self) hc)]
    simp only [hlength]
    rw [← List.cons_append, List.drop_left, ih]
    simp only [List.length_cons, List.length_append]
    omega

/-- A path starts with a word character. -/
theorem ConstantPath.head?_text (path : ConstantPath) (u cs : List Char) :
    (path.text ++ u ++ cs).head?.any isWordChar = true := by
  obtain ⟨⟨w, hw⟩, more⟩ := path
  simp only [isConstantName, Bool.and_eq_true] at hw
  obtain ⟨c, w, rfl, -, hall⟩ := exists_cons_of_isWordFrom hw.1.1
  exact isWordChar_of_isPlainWordChar (hall c List.mem_cons_self)

/-- A path of constants is one token. -/
theorem passes_constant (path : ConstantPath) (hdot : m.dot = false) (hn : endsPath next = true) :
    Passes line column m path.text
      [Token.constant (String.ofList path.text) { line, column := column + 1 }]
      { m with value := false, dot := false } next := by
  obtain ⟨⟨w, hname⟩, more⟩ := path
  simp only [isConstantName, Bool.and_eq_true, decide_eq_true_eq] at hname
  obtain ⟨⟨hw, hbegin⟩, hend⟩ := hname
  obtain ⟨c, cs, rfl, hc, hall⟩ := exists_cons_of_isWordFrom hw
  refine Passes.of_readWord hw (fun _ => isWordStart_of_isUpper) fun r hr => ?_
  generalize hu : more.flatMap (fun segment => ':' :: ':' :: segment.val) = u at hr
  have hlength : pathLength (u ++ next) = u.length := by
    rw [← hu]
    exact pathLength_append more hn
  -- The word is the first segment only, which ends at the colons of the second one if there is one.
  have hword : wordAt r.rest = c :: cs := by
    rw [hr.rest_eq]
    refine wordAt_append (isWordChar_of_mem hw) ?_
    cases more with
    | nil => subst hu; exact endsWord_of_endsPath hn
    | cons => subst hu; rfl
  have hlabel : isLabelColon (u ++ next) = false := by
    cases more with
    | nil => subst hu; exact isLabelColon_of_endsPath hn
    | cons => subst hu; rfl
  have hkeyword : String.ofList (c :: cs) ∉ keywords := by
    -- Of the keywords only two start with a capital.
    have hcapital : ∀ k ∈ keywords, k.toList.head?.any Char.isUpper = true →
        k = "BEGIN" ∨ k = "END" := by decide
    intro hmem
    exact (hcapital _ hmem (by simpa using hc)).elim hbegin hend
  have hdrop : r.rest.drop (c :: cs).length = u ++ next := by rw [hr.rest_eq, List.drop_left]
  have hupper : startsUppercase (c :: cs) = true :=
    isUppercase_of_isUpper (hall c List.mem_cons_self) hc
  have hread : r.readWord = r.takeConstant (c :: cs ++ u).length := by
    unfold Reader.readWord
    simp only [hword, hdrop, hlength, hlabel, hkeyword, hupper, hr.dot_eq, hdot, List.length_append,
      Bool.false_eq_true, if_false, if_true]
  rw [← List.append_assoc] at hr
  refine ⟨_, hr.hop.markValue, ?_⟩
  rw [hread, Reader.takeConstant, hr.rest_eq, List.take_left, hr.location_eq]
  subst hu
  rfl

/-! ## Keywords -/

/-- The mode after a block was opened by `word`. -/
def Mode.openBlock (m : Mode) (word : String) : Mode :=
  { m with blocks := .plain :: m.blocks, loop := word ∈ loopKeywords || m.loop }

/-- The mode after `word` opened the block that it opens where it stands, if any. -/
def Mode.openBlockOf (m : Mode) (word : String) : Mode :=
  if word ∈ modifierKeywords then if m.value then m.openBlock word else m
  else if word ∈ blockKeywords then m.openBlock word
  else if word = "do" then
    if m.loop then { m with loop := false } else { m with blocks := .plain :: m.blocks }
  else m

namespace Reader.Stands

variable {r : Reader} {rest : List Char}

/-- A reader that opens a block is in the mode after it. -/
theorem openBlock (h : r.Stands line column m rest) (word : String) :
    (r.openBlock word).Stands line column (m.openBlock word) rest := by
  have hpush := h.push .plain
  unfold Reader.openBlock Mode.openBlock
  by_cases hword : word ∈ loopKeywords
  · simp only [hword, if_true, decide_true, Bool.true_or]
    exact { hpush with loop_eq := by simp [h.line_eq] }
  · simp only [hword, if_false, decide_false, Bool.false_or]
    exact hpush

/-- A reader is in the mode after a word that may open a block. -/
theorem openBlockOf (h : r.Stands line column m rest) (word : String) :
    (r.openBlockOf word).Stands line column (m.openBlockOf word) rest := by
  unfold Reader.openBlockOf Mode.openBlockOf
  simp only [h.value_eq, h.loopLine_eq_iff]
  split
  · split
    · exact h.openBlock word
    · exact h
  split
  · exact h.openBlock word
  split
  · split
    · -- The `do` of a loop takes the loop out of memory and opens nothing.
      exact { h with loop_eq := by simp, value_eq := rfl }
    · exact h.push .plain
  · exact h

/-- A keyword that is no label and comes after no dot is read as such. -/
private theorem readWord_of_mem_keywords {word : String}
    (h : r.Stands line column m (word.toList ++ next))
    (hw : isWordFrom Char.isLower word.toList = true) (hmem : word ∈ keywords)
    (hdot : m.dot = false) (hn : endsPath next = true) : r.readWord = r.readKeyword word := by
  have hword : wordAt r.rest = word.toList := by
    rw [h.rest_eq]
    exact wordAt_append (isWordChar_of_mem hw) (endsWord_of_endsPath hn)
  have hdrop : r.rest.drop word.toList.length = next := by rw [h.rest_eq, List.drop_left]
  unfold Reader.readWord
  simp only [hword, hdrop, isLabelColon_of_endsPath hn, h.dot_eq, hdot, String.ofList_toList, hmem,
    Bool.false_eq_true, if_false, if_true]

end Reader.Stands

/-- A keyword is read in one step. -/
private theorem Passes.of_readKeyword {word : String}
    (hw : isWordFrom Char.isLower word.toList = true) (hmem : word ∈ keywords)
    (hdot : m.dot = false) (hn : endsPath (u ++ next) = true)
    (h : ∀ r : Reader, r.Stands line column m (word.toList ++ (u ++ next)) →
      ∃ r' : Reader, r'.Stands line (column + (word.toList ++ u).length) m' next ∧
        r.readKeyword word = (tokens.map .token, r')) :
    Passes line column m (word.toList ++ u) tokens m' next := by
  refine Passes.of_readWord hw (fun _ => isWordStart_of_isLower) fun r hr => ?_
  rw [hr.readWord_of_mem_keywords hw hmem hdot hn]
  exact h r hr

/-- The keywords of programs that are read alike. -/
def plainKeywords : List String :=
  ["if", "unless", "while", "until", "case", "begin", "for", "in", "do", "self"]

/-- The keywords that are read alike. -/
theorem passes_keyword {word : String} (hword : word ∈ plainKeywords) (hdot : m.dot = false)
    (hn : endsPath next = true) :
    Passes line column m word.toList
      [Token.keyword word (some .other) none { line, column := column + 1 }]
      { m.openBlockOf word with value := word ∉ operandKeywords, dot := false } next := by
  -- None of them is one of the four that are read in their own way.
  have hplain : ∀ k ∈ plainKeywords, isWordFrom Char.isLower k.toList = true ∧ k ∈ keywords ∧
      k ≠ "def" ∧ k ≠ "module" ∧ k ≠ "class" ∧ k ≠ "end" := by decide
  obtain ⟨hw, hmem, hdef, hmodule, hclass, hend⟩ := hplain word hword
  rw [← List.append_nil word.toList]
  refine Passes.of_readKeyword hw hmem hdot hn fun r hr => ?_
  rw [Reader.readKeyword, if_neg hdef, if_neg hmodule, if_neg hclass, if_neg hend,
    Reader.readOtherKeyword, List.append_nil, String.length_toList]
  have hnext := (hr.openBlockOf word).hop
  rw [String.length_toList] at hnext
  have htoken : [r.keywordHere word .other none] = [Token.keyword word (some .other) none
      { line, column := column + 1 }].map Event.token := by
    rw [Reader.keywordHere, hr.location_eq]
    rfl
  by_cases hoperand : word ∈ operandKeywords
  · refine ⟨_, ?_, by rw [htoken, if_pos hoperand]⟩
    simpa [hoperand] using hnext.markValue
  · refine ⟨_, ?_, by rw [htoken, if_neg hoperand]⟩
    simpa [hoperand] using hnext.markOperator

/-- The keyword of a module. -/
theorem passes_module (hdot : m.dot = false) (hn : endsPath next = true) :
    Passes line column m "module".toList
      [Token.keyword "module" (some .newScope) (some .moduleDef) { line, column := column + 1 }]
      { m with value := true, dot := false, blocks := .construct :: m.blocks } next := by
  rw [← List.append_nil "module".toList]
  refine Passes.of_readKeyword (by decide) (by decide) hdot hn fun r hr => ?_
  refine ⟨_, hr.hop.markOperator.push .construct, ?_⟩
  change ([r.keywordHere "module" .newScope (some .moduleDef)], _) = _
  rw [Reader.keywordHere, hr.location_eq]
  rfl

/-- The keyword of a class, before its name. -/
theorem passes_class {cs : List Char} (hdot : m.dot = false) (hcs : cs.head?.any isWordChar) :
    Passes line column m "class".toList
      [Token.keyword "class" (some .newScope) (some .classDef) { line, column := column + 1 }]
      { m with value := true, dot := false, blocks := .construct :: m.blocks } (' ' :: cs) := by
  rw [← List.append_nil "class".toList]
  refine Passes.of_readKeyword (by decide) (by decide) hdot rfl fun r hr => ?_
  refine ⟨_, hr.hop.markOperator.push .construct, ?_⟩
  obtain ⟨c, cs, rfl⟩ : ∃ c cs', cs = c :: cs' := by
    cases cs with
    | nil => cases hcs
    | cons c cs => exact ⟨c, cs, rfl⟩
  have hrest : ((r.hop 5).markOperator).rest.dropWhile isSpace = c :: cs := by
    rw [Reader.rest_markOperator, Reader.rest_hop, hr.rest_eq]
    have hspace : ¬isSpace c = true := by simp [not_isSpace_of_isWordChar hcs]
    exact List.dropWhile_cons_of_neg hspace
  -- So the header is not that of a singleton class.
  have hless : c ≠ '<' := ne_of_isWordChar hcs (by decide)
  change r.readClass = _
  unfold Reader.readClass
  simp only [hrest]
  split
  · simp_all
  · rw [Reader.keywordHere, hr.location_eq]
    rfl

/-- The keyword of a class, before two less-than signs. -/
theorem passes_singletonClass (hdot : m.dot = false) :
    Passes line column m "class".toList
      [Token.keyword "class" (some .other) none { line, column := column + 1 }]
      { m with value := true, dot := false, blocks := .singletonClass :: m.blocks }
      (' ' :: '<' :: '<' :: next) := by
  rw [← List.append_nil "class".toList]
  refine Passes.of_readKeyword (by decide) (by decide) hdot rfl fun r hr => ?_
  refine ⟨_, hr.hop.markOperator.push .singletonClass, ?_⟩
  change r.readClass = _
  have hrest : ((r.hop 5).markOperator).rest.dropWhile isSpace = '<' :: '<' :: next := by
    rw [Reader.rest_markOperator, Reader.rest_hop, hr.rest_eq]
    rfl
  unfold Reader.readClass
  simp only [hrest]
  rw [Reader.keywordHere, hr.location_eq]
  rfl

/-- An `end`, which closes the innermost block. -/
theorem passes_end {b : Block} {blocks : List Block} (hblocks : m.blocks = b :: blocks)
    (hdot : m.dot = false) (hn : endsPath next = true) :
    Passes line column m b.ending.text
      (b.ending.token?.map (· { line, column := column + 1 })).toList
      { m with value := false, dot := false, blocks } next := by
  change Passes line column m "end".toList _ _ _
  rw [← List.append_nil "end".toList]
  refine Passes.of_readKeyword (by decide) (by decide) hdot hn fun r hr => ?_
  refine ⟨{ (r.hop 3).markValue with blocks }, { hr.hop.markValue with blocks_eq := rfl }, ?_⟩
  change r.readEnd = _
  have hrb : r.blocks = b :: blocks := hr.blocks_eq.trans hblocks
  unfold Reader.readEnd
  rw [hrb]
  -- Only that of a construct is one for scopes.
  cases b with
  | construct => simp only [Reader.keywordHere, hr.location_eq]; rfl
  | plain => simp only [Reader.keywordHere, hr.location_eq]; rfl
  | singletonClass => simp only [Reader.keywordHere, hr.location_eq]; rfl

/-! ## Method definitions -/

/-- What a method name is followed by: the end of its line. -/
private theorem isEndless_newline (cs : List Char) : isEndless ('\n' :: cs) = false := rfl

section

variable (name : MethodName) (cs : List Char)

/-- The word of a name. -/
private theorem MethodName.isWordChar_word : ∀ c ∈ name.word.val, isWordChar c = true :=
  isWordChar_of_mem name.word.property

/-- The mark of a name, or the newline after it, ends the word before it. -/
private theorem MethodName.takeWhile_text :
    (name.text ++ '\n' :: cs).takeWhile isWordChar = name.word.val := by
  rw [MethodName.text, List.append_assoc]
  refine takeWhile_isWordChar_append name.isWordChar_word ?_
  obtain ⟨_, mark, hmark⟩ := name
  simp only [Bool.or_eq_true, decide_eq_true_eq] at hmark
  rcases hmark with (rfl | rfl) | rfl <;> rfl

/-- What follows the word of a name. -/
private theorem MethodName.drop_text :
    (name.text ++ '\n' :: cs).drop name.word.val.length = name.mark.val ++ '\n' :: cs := by
  rw [MethodName.text, List.append_assoc, List.drop_left]

/-- A name starts like a word. -/
theorem MethodName.head?_text : (name.text ++ '\n' :: cs).head?.any isWordStart = true := by
  obtain ⟨⟨w, hw⟩, mark⟩ := name
  obtain ⟨c, cs, rfl, hc, -⟩ := exists_cons_of_isWordFrom hw
  simp only [Bool.or_eq_true, decide_eq_true_eq] at hc
  simpa [MethodName.text, isWordStart] using Or.inl hc

/-- The name is read up to the end of its line. -/
private theorem methodNameLength_text :
    methodNameLength (name.text ++ '\n' :: cs) = name.text.length := by
  rw [methodNameLength, if_pos (name.head?_text cs)]
  simp only [wordLength, name.takeWhile_text cs, name.drop_text cs]
  obtain ⟨w, mark, hmark⟩ := name
  simp only [Bool.or_eq_true, decide_eq_true_eq] at hmark
  -- With each of the marks, and with none.
  rcases hmark with (rfl | rfl) | rfl <;> simp [MethodName.text]

/-- A name is no receiver, not even `self`. -/
theorem receiverLength_text : receiverLength (name.text ++ '\n' :: cs) = 0 := by
  have hdot : ∀ rest, name.mark.val ++ '\n' :: cs ≠ '.' :: rest := by
    obtain ⟨w, mark, hmark⟩ := name
    simp only [Bool.or_eq_true, decide_eq_true_eq] at hmark
    rcases hmark with (rfl | rfl) | rfl <;> simp
  have hself : ¬"self.".toList.isPrefixOf (name.text ++ '\n' :: cs) = true := by
    rw [List.isPrefixOf_iff_prefix]
    rintro ⟨rest, hrest⟩
    -- The word would be `self`, and the dot would stand where a mark or the newline does.
    have hword : name.word.val = "self".toList := by
      rw [← name.takeWhile_text cs, ← hrest]
      rfl
    have hdrop := name.drop_text cs
    rw [← hrest, hword] at hdrop
    exact hdot rest hdrop.symm
  rw [receiverLength, if_neg hself, if_pos (name.head?_text cs)]
  simp only [wordLength, name.takeWhile_text cs, name.drop_text cs]

/-- One space comes before the name of a method. -/
theorem spacesLength_text : spacesLength (' ' :: (name.text ++ '\n' :: cs)) = 1 := by
  have hhead := name.head?_text cs
  cases htext : name.text ++ '\n' :: cs with
  | nil => rfl
  | cons c rest =>
    rw [htext] at hhead
    have hspace := not_isSpace_of_isWordChar (isWordChar_of_isWordStart hhead)
    have htake : (c :: rest).takeWhile isSpace = [] := by simp [hspace]
    rw [spacesLength, List.takeWhile_cons_of_pos rfl, htake]
    rfl

/-- Whether the innermost of the blocks that is more than a block is a singleton class. -/
def singletonIn (blocks : List Block) : Bool :=
  blocks.find? (· ≠ .plain) = some .singletonClass

/-- A definition is read in one step, from its keyword over the receiver to its name. -/
theorem passes_definition (receiver : List Char) {k : Construct} (hdot : m.dot = false)
    (hspaces : spacesLength (' ' :: (receiver ++ (name.text ++ '\n' :: cs))) = 1)
    (hreceiver : receiverLength (receiver ++ (name.text ++ '\n' :: cs)) = receiver.length)
    (hk : (if singletonIn m.blocks = true ∨ 0 < receiver.length then .method
      else .instanceMethod) = k) :
    Passes line column m ("def".toList ++ (' ' :: receiver ++ name.text))
      [Token.keyword "def" (some .newScope) (some k) { line, column := column + 1 },
       Token.identifier (String.ofList name.text)
        { line, column := (column + 3 + (' ' :: receiver).length : Nat) + 1 }]
      { m with value := false, dot := false, blocks := .construct :: m.blocks } ('\n' :: cs) := by
  refine Passes.of_readKeyword (by decide) (by decide) hdot rfl fun r hr => ?_
  rw [List.append_assoc] at hr
  -- The three places of the reading: after the keyword, at the name and after the name.
  have hhead : (r.hop 3).Stands line (column + 3) m
      (' ' :: receiver ++ (name.text ++ '\n' :: cs)) := hr.hop
  have hthere := hhead.hop
  have hlast := (hthere.push .construct).hop.markValue
  have hcolumn : column + 3 + (' ' :: receiver).length + name.text.length =
      column + ("def".toList ++ (' ' :: receiver ++ name.text)).length := by
    rw [List.length_append, List.length_append, ← Nat.add_assoc, ← Nat.add_assoc]
    rfl
  rw [hcolumn] at hlast
  refine ⟨_, hlast, ?_⟩
  have hreach : 1 + receiver.length = (' ' :: receiver).length := by
    rw [List.length_cons, Nat.add_comm]
  have hpos : 0 < name.text.length := by
    obtain ⟨c, w, hw, -⟩ := exists_cons_of_isWordFrom name.word.property
    simp [MethodName.text, hw]
  have hsingleton : r.inSingletonClass = singletonIn m.blocks := by
    rw [Reader.inSingletonClass, hr.blocks_eq]
    rfl
  have hrest := hhead.rest_eq
  rw [List.cons_append] at hrest
  change r.readDefinition = _
  unfold Reader.readDefinition
  simp only [hrest, hspaces, List.drop_succ_cons, List.drop_zero, hreceiver, hreach,
    hthere.rest_eq, methodNameLength_text, List.drop_left, List.take_left, isEndless_newline, hpos,
    hsingleton, hk, Reader.keywordHere, hr.location_eq, hthere.location_eq, if_true,
    Bool.false_eq_true, and_false, decide_false, Reader.openDefinition, if_false]
  rfl

end

end

/-! ## Ends of lines -/

/-- The text up to the first newline. -/
theorem takeWhile_ne_newline {l : List Char} (rest : List Char) (h : '\n' ∉ l) :
    (l ++ '\n' :: rest).takeWhile (· ≠ '\n') = l := by
  rw [List.takeWhile_append_of_pos]
  · simp
  · exact fun c hc => decide_eq_true fun hn => h (hn ▸ hc)

/-- The text from the first newline on. -/
theorem dropWhile_ne_newline {l : List Char} (rest : List Char) (h : '\n' ∉ l) :
    (l ++ '\n' :: rest).dropWhile (· ≠ '\n') = '\n' :: rest := by
  rw [List.dropWhile_append_of_pos]
  · simp
  · exact fun c hc => decide_eq_true fun hn => h (hn ▸ hc)

/-- The next line starts after the first newline. -/
theorem Cursor.nextLine_eq {k : Cursor} {l rest : List Char} (hk : k.rest = l ++ '\n' :: rest)
    (h : '\n' ∉ l) :
    ∃ before, k.nextLine = { before, line := k.line + 1, column := 0, rest } := by
  rw [nextLine, hk]
  simp only [takeWhile_ne_newline rest h, dropWhile_ne_newline rest h]
  exact ⟨_, rfl⟩

namespace Reader

/-- A comment reaches to the end of its line and loses the carriage returns there. -/
theorem readComment_eq {r : Reader} {text rest : List Char}
    (hr : r.rest = '#' :: text ++ '\n' :: rest) (h : '\n' ∉ text) :
    r.readComment =
      ([.token (Token.comment (String.ofList (Text.trimEnd (· = '\r') ('#' :: text))) r.location)],
        r.hop ('#' :: text).length) := by
  have hline : '\n' ∉ '#' :: text := by simpa using h
  rw [readComment, Cursor.currentLine, hr, takeWhile_ne_newline rest hline]

/-- There is nothing to close where no endless definition is open. -/
private theorem closeEndless_of_eq_nil {r : Reader} (h : r.endless = []) :
    r.closeEndless = ([], r) := by
  obtain ⟨k, value, dot, identifier, depth, blocks, loop, endless, heredocs⟩ := r
  cases h
  cases value <;> rfl

/-- The end of a line, with the bodies of the heredocs announced on it. -/
theorem Stands.newline {r : Reader} {line line' column : Nat} {m : Mode} {rest rest' : List Char}
    (h : r.Stands line column m ('\n' :: rest))
    (hbodies : ∀ before, ∃ before', skipBodies m.heredocs { before, line := line + 1, rest } =
      ({ before := before', line := line', column := 0, rest := rest' }, []))
    (hlt : line < line') :
    ∃ r' : Reader, r'.Stands line' 0 { blocks := m.blocks } rest' ∧ r.events = r'.events := by
  obtain ⟨before, hnext⟩ := Cursor.nextLine_eq (k := r.toCursor) (l := []) h.rest_eq (by simp)
  obtain ⟨before', hskip⟩ := hbodies before
  rw [h.line_eq] at hnext
  have hstep : r.step? = some r.readNewline := Reader.step?_eq_read h.rest_eq (Or.inr (by decide))
  have hclose := closeEndless_of_eq_nil
    (r := { r.moveTo { before := before', line := line', rest := rest' } with heredocs := [] })
    h.endless_eq
  rw [readNewline, hnext, h.heredocs_eq, hskip] at hstep
  simp only [hclose] at hstep
  refine ⟨_, ?_, events_of_step? hstep⟩
  -- The line of a loop stays in memory, but it is an earlier one now.
  exact { h with
    rest_eq := rfl, line_eq := rfl, column_eq := rfl, value_eq := rfl, dot_eq := rfl,
    heredocs_eq := rfl
    loop_eq := fun l hl => Nat.lt_of_le_of_lt (h.loopLine_le hl) hlt }

/-- The end of a line on which no heredoc was announced. -/
theorem Stands.plain_newline {r : Reader} {line column : Nat} {m : Mode} {rest : List Char}
    (h : r.Stands line column m ('\n' :: rest)) (hm : m.heredocs = []) :
    ∃ r' : Reader, r'.Stands (line + 1) 0 { blocks := m.blocks } rest ∧ r.events = r'.events :=
  h.newline (fun before => ⟨before, by rw [hm]; rfl⟩) (Nat.lt_succ_self line)

end Reader

end ScopeTags.Source
