import ScopeTags.Proofs.ScannerWords

/-!
# Punctuation by index

Punctuation is read with lookaheads of up to two characters, which may lie past the end of the text,
and with steps of up to three.  A backslash that ends the text takes the position one past the end
of it, and nothing else does.

## Key results

- `scanColon_performs`, `scanSign_performs`: colons, brackets and operators
- `scanPunctuation_performs`: all that is neither blank nor comment nor word
-/

namespace ScopeTags.Source

/-! ## Lengths stay within the text -/

/-- A number ends within the text. -/
private theorem numberLength_le (cs : List Char) : numberLength cs ≤ cs.length := by
  induction cs with
  | nil => exact Nat.le_refl 0
  | cons c cs ih =>
    rw [numberLength]
    split
    · exact Nat.succ_le_succ ih
    · exact Nat.zero_le _

/-- A symbol does, with its colon. -/
private theorem symbolLength_le (cs : List Char) : symbolLength cs ≤ cs.length + 1 := by
  have hword := wordLength_le cs
  -- Where a mark is counted, there is a character for it behind the word.
  have hmark {c : Char} {rest : List Char} (hrest : cs.drop (wordLength cs) = c :: rest) :
      wordLength cs + 1 ≤ cs.length := by
    have hlength := congrArg List.length hrest
    rw [List.length_drop, List.length_cons] at hlength
    omega
  rw [symbolLength]
  split
  · next hrest => exact Nat.succ_le_succ (hmark hrest)
  · next hrest => exact Nat.succ_le_succ (hmark hrest)
  · next hrest => split <;> exact Nat.succ_le_succ (by have := hmark hrest; omega)
  · exact Nat.succ_le_succ hword

/-- The terminator of a heredoc ends within the text, with its quotes. -/
private theorem terminator?_le {indented : Bool} {cs name : List Char} {n : Nat}
    (h : Heredoc.terminator? indented cs = some (name, n)) : n ≤ cs.length := by
  cases cs with
  | nil => cases h
  | cons c cs =>
    rw [Heredoc.terminator?] at h
    split at h
    · -- Between quotes: the second one is there.
      dsimp only at h
      split at h
      · next hclose =>
        cases h
        have hlt := (List.getElem?_eq_some_iff.mp hclose).1
        rw [List.length_cons]
        omega
      · cases h
    · split at h
      · cases h
        exact (List.takeWhile_prefix _).length_le
      · cases h

/-- The opening of a heredoc ends within the text. -/
private theorem opening?_le {cs : List Char} {heredoc : Heredoc} {n : Nat}
    (h : Heredoc.opening? cs = some (heredoc, n)) : n ≤ cs.length := by
  cases cs with
  | nil => cases h
  | cons c cs =>
    rw [Heredoc.opening?] at h
    split at h
    · obtain ⟨⟨name, m⟩, hterminator, heq⟩ := Option.map_eq_some_iff.mp h
      cases heq
      exact Nat.succ_le_succ (terminator?_le hterminator)
    · obtain ⟨⟨name, m⟩, hterminator, heq⟩ := Option.map_eq_some_iff.mp h
      cases heq
      exact terminator?_le hterminator

namespace Scanner

variable {s : Scanner}

/-- Whether a space comes before the position. -/
private theorem afterSpace_eq (hpos : s.pos ≤ s.source.length) :
    s.afterSpace = s.view.afterSpace := by
  have hbefore : s.view.before = (s.source.take s.pos).reverse := rfl
  rw [afterSpace, Reader.afterSpace, hbefore]
  -- At the start of the text nothing comes before.
  cases hk : s.pos with
  | zero => simp
  | succ k =>
    have hlt : k < s.source.length := by omega
    rw [List.take_succ_eq_append_getElem hlt, Nat.add_sub_cancel, List.getElem?_eq_getElem hlt,
      List.reverse_append, List.reverse_singleton, List.singleton_append, List.head?_cons,
      decide_eq_true (Nat.succ_pos k), Bool.true_and]

/-- Whether an operand may start at the position. -/
private theorem operandMayStart_eq (hpos : s.pos ≤ s.source.length) :
    s.operandMayStart = s.view.operandMayStart s.source[s.pos + 1]? := by
  rw [operandMayStart, Reader.operandMayStart, afterSpace_eq hpos]
  rfl

/-- A character literal has two characters, or three with a backslash. -/
private theorem characterLength?_eq (s : Scanner) :
    characterLength? (s.source.drop (s.pos + 1))
      = if s.atCharLiteral then some (if s.startsAt ['\\'] (s.pos + 1) then 3 else 2)
        else none := by
  simp only [atCharLiteral, startsAt_singleton]
  -- Both look at the two characters after the mark, which need not be there.
  cases hc : s.source[s.pos + 1]? with
  | none =>
    rw [List.drop_eq_nil_of_le (List.getElem?_eq_none_iff.mp hc)]
    rfl
  | some c =>
    rw [drop_eq_cons hc, characterLength?, List.head?_drop]
    simp only [Option.any_some, Option.some.injEq]
    cases s.source[s.pos + 2]? <;> grind

end Scanner

namespace Scanning

open Source.Scanner

variable {s : Scanner}

/-! ## Single steps -/

/-- A value of `n` characters is passed over. -/
private theorem skipValue_performs {n : Nat} (h : s.Sound) (hn : s.pos + n ≤ s.source.length + 1) :
    Performs s (s.view.skipValue n) () (skipValue (s.pos + n) s) := by
  have hsound : s.SoundAt (s.pos + n) := h.of_le (Nat.le_add_right _ n) hn
  rw [skipValue, bind_run, goTo_run, andThen_ok, Reader.skipValue, ← view_goTo h]
  exact .done rfl (follows_nil rfl rfl rfl rfl rfl) hsound rfl

/-- An operator of `n` characters is passed over. -/
private theorem skipOperator_performs {n : Nat} (h : s.Sound)
    (hn : s.pos + n ≤ s.source.length + 1) :
    Performs s (s.view.skipOperator n) () (skipOperator (s.pos + n) s) := by
  have hsound : s.SoundAt (s.pos + n) := h.of_le (Nat.le_add_right _ n) hn
  rw [skipOperator, bind_run, goTo_run, andThen_ok, Reader.skipOperator, ← view_goTo h]
  exact .done rfl (follows_nil rfl rfl rfl rfl rfl) hsound rfl

/-- What calls a method is passed over. -/
private theorem skipDot_performs {n : Nat} (h : s.Sound) (hn : s.pos + n ≤ s.source.length + 1) :
    Performs s (s.view.skipDot n) () (skipDot (s.pos + n) s) := by
  have hsound : s.SoundAt (s.pos + n) := h.of_le (Nat.le_add_right _ n) hn
  rw [skipDot, bind_run, goTo_run, andThen_ok, Reader.skipDot, ← view_goTo h]
  exact .done rfl (follows_nil rfl rfl rfl rfl rfl) hsound rfl

/-! ## Where numbers and symbols end -/

/-- A number is followed to its end with a bound on the rounds. -/
private theorem numberEndFor_run {fuel i : Nat} (hfuel : s.source.length - i < fuel) :
    numberEndFor fuel i s = some (.ok (i + numberLength (s.source.drop i)), s) := by
  -- By induction on the rounds, one for each character of the number.
  induction fuel generalizing i with
  | zero => omega
  | succ fuel ih =>
    rw [numberEndFor, bind_run, get_run, andThen_ok, ite_run]
    by_cases hi : i < s.source.length
    · have hc := List.getElem?_eq_getElem hi
      have hnext : i + 1 + numberLength (s.source.drop (i + 1))
          = i + (numberLength (s.source.drop (i + 1)) + 1) := by omega
      have hrest := ih (show s.source.length - (i + 1) < fuel by omega)
      rw [if_pos hi, bind_run, charAt_run hc, andThen_ok, drop_eq_cons hc, numberLength,
        List.head?_drop]
      simp only [ite_run, pure_run, hrest, hnext]
      split_ifs <;> grind
    · rw [if_neg hi, List.drop_eq_nil_of_le (Nat.le_of_not_lt hi)]
      rfl

/-- A number is followed to its end. -/
private theorem numberEnd_run (i : Nat) (s : Scanner) :
    numberEnd i s = some (.ok (i + numberLength (s.source.drop i)), s) :=
  numberEndFor_run (Nat.lt_succ_of_le (Nat.sub_le _ _))

/-- A symbol takes the mark after its word, but not that of an arrow. -/
private theorem symbolEnd_run (s : Scanner) (i : Nat) :
    symbolEnd (i + 1 + ((s.source.drop (i + 1)).takeWhile isWordChar).length) s
      = some (.ok (i + symbolLength (s.source.drop (i + 1))), s) := by
  rw [symbolEnd, bind_run, get_run, andThen_ok, ite_run, symbolLength, wordLength, List.drop_drop]
  cases hc : s.source[i + 1 + ((s.source.drop (i + 1)).takeWhile isWordChar).length]? with
  | none =>
    have hend := List.getElem?_eq_none_iff.mp hc
    rw [if_neg (Nat.not_lt_of_ge hend), List.drop_eq_nil_of_le hend, pure_run]
    simp only [Nat.add_assoc, Nat.add_comm 1]
  | some c =>
    rw [if_pos (List.getElem?_eq_some_iff.mp hc).1, bind_run, charAt_run hc, andThen_ok,
      drop_eq_cons hc]
    simp only [ite_run, pure_run, startsAt_pair, hc, Option.some.injEq]
    rw [← List.head?_drop]
    by_cases hmark : c = '?' ∨ c = '!' ∨ c = '='
    · rw [if_pos hmark]
      rcases hmark with rfl | rfl | rfl <;> grind
    · rw [if_neg hmark]
      grind

/-- Where a value is expected, a colon and an operator are a symbol. -/
private theorem symbolOperator_run (s : Scanner) :
    symbolOperator s = some (.ok (if s.valueExpected then operatorLength (s.source.drop (s.pos + 1))
      else 0), s) := by
  rw [symbolOperator, bind_run, get_run, andThen_ok, ite_run, operatorAt_run, pure_run]
  split <;> rfl

/-- A colon is read, and the symbol after it, if there is one. -/
theorem scanColon_performs (h : s.Sound) (hpos : s.pos < s.source.length) :
    PerformsAt s (s.view.depthAt ':' (s.source.drop (s.pos + 1)))
      (s.view.readColon (s.source.drop (s.pos + 1))) () (scanColon s.source[s.pos + 1]? s) := by
  have hone : s.pos + 1 ≤ s.source.length + 1 := by omega
  rw [scanColon, bind_run, get_run, andThen_ok, Reader.depthAt, if_neg (by decide), if_pos rfl,
    List.head?_drop]
  simp only [ite_run, bind_run, symbolOperator_run, andThen_ok, scanWhile_run]
  cases hc : s.source[s.pos + 1]? with
  | none =>
    -- A colon at the end of the text is an operator like any other.
    have hend := List.getElem?_eq_none_iff.mp hc
    have hoperator : operatorLength [] = 0 := by decide
    rw [List.drop_eq_nil_of_le hend, hoperator]
    simp only [ite_self, Nat.lt_irrefl, if_false]
    exact (skipOperator_performs h hone).within rfl
  | some c =>
    have hlt : s.pos + 1 < s.source.length := (List.getElem?_eq_some_iff.mp hc).1
    have hoperator : (0 < if s.valueExpected then operatorLength (s.source.drop (s.pos + 1)) else 0)
        ↔ s.view.valueExpected ∧ 0 < operatorLength (s.source.drop (s.pos + 1)) := by
      show _ ↔ s.valueExpected ∧ _
      by_cases hvalue : s.valueExpected <;> simp [hvalue]
    rw [drop_eq_cons hc, Reader.readColon, ← drop_eq_cons hc]
    simp only [Option.some.injEq, Option.any_some, Option.getD_some, hoperator,
      or_comm (a := c = '\x27')]
    -- A quoted symbol, two colons, a word, an operator, or a colon on its own.
    split_ifs with hquote hcolon hcolon hword hop hvalue
    · exact absurd hquote (by rw [hcolon]; decide)
    · -- The scanner goes to the quote of a quoted symbol and skips a string from there.
      have hnext : s.SoundAt (s.pos + 1) := h.of_le (by omega) (by omega)
      have hstring := skipString_skips (s := { s with pos := s.pos + 1 }) c hnext hlt
      rw [goTo_run, andThen_ok, bind_run]
      exact skipLiteral_performs h (.of_goTo (s.pos + 1) hstring)
    · exact (skipDot_performs h (by omega)).within rfl
    · have hlength := symbolLength_le (s.source.drop (s.pos + 1))
      rw [List.length_drop] at hlength
      rw [symbolEnd_run, andThen_ok]
      exact (skipValue_performs h (by omega)).within rfl
    · have hlength := operatorLength_le (s.source.drop (s.pos + 1))
      rw [List.length_drop] at hlength
      rw [Nat.add_assoc, Nat.add_comm 1]
      exact (skipValue_performs h (by omega)).within rfl
    · exact absurd hop.1 hvalue
    · exact (skipOperator_performs h hone).within rfl

/-- A semicolon ends a statement. -/
private theorem closeStatement_performs (hs : s.Sound) (h : s.SoundAt (s.pos + 1)) :
    Performs s s.view.readSemicolon () ((do
      closeEndless
      markOperator) { s with pos := s.pos + 1 }) := by
  let next : Scanner := { s with pos := s.pos + 1 }
  have follows : s.Follows [] next := follows_nil rfl rfl rfl rfl rfl
  have hends : Performs next (next.view.closeEndless.1, next.view.closeEndless.2) ()
      (closeEndless next) := closeEndless_performs h
  have hreading : s.view.readSemicolon
      = (next.view.closeEndless.1, next.view.closeEndless.2.markOperator) := by
    rw [show next.view = s.view.hop 1 from view_goTo hs 1]
    rfl
  rw [hreading, bind_run]
  refine .after follows (hends.bind_last fun s' _ sound hview => ?_)
  rw [← hview]
  exact .done rfl (follows_nil rfl rfl rfl rfl rfl) sound rfl

/-- One dot calls a method, two or three are a range. -/
private theorem readDot_eq (r : Reader) (cs : List Char) :
    r.readDot cs = if cs[0]? = some '.' then r.skipOperator (if cs[1]? = some '.' then 3 else 2)
      else r.skipDot 1 := by
  rcases cs with _ | ⟨c, _ | ⟨d, cs⟩⟩
  · rfl
  · by_cases hc : c = '.' <;> simp [Reader.readDot, hc]
  · by_cases hc : c = '.' <;> by_cases hd : d = '.' <;> simp [Reader.readDot, hc, hd]

/-- A bracket or an operator is read. -/
theorem scanSign_performs {c : Char} (h : s.Sound) (hc : s.source[s.pos]? = some c) :
    Performs s (s.view.readSign c (s.source.drop (s.pos + 1))) ()
      (scanSign c s.source[s.pos + 1]? s) := by
  have hpos : s.pos < s.source.length := (List.getElem?_eq_some_iff.mp hc).1
  have hone : s.pos + 1 ≤ s.source.length + 1 := by omega
  have hsound : s.SoundAt (s.pos + 1) := h.of_le (by omega) hone
  rw [scanSign, bind_run, get_run, andThen_ok, Reader.readSign, List.head?_drop]
  simp only [ite_run]
  -- Opening brackets, closing brackets, semicolons, dots, and then all other signs.
  split
  · rw [bind_run, modify_run, andThen_ok, skipOperator, bind_run, goTo_run, andThen_ok,
      ← view_goTo h]
    exact .done rfl (follows_nil rfl rfl rfl rfl rfl) hsound rfl
  split
  · rw [bind_run, modify_run, andThen_ok, skipValue, bind_run, goTo_run, andThen_ok, ← view_goTo h]
    exact .done rfl (follows_nil rfl rfl rfl rfl rfl) hsound rfl
  split
  · rw [bind_run, goTo_run, andThen_ok]
    exact closeStatement_performs h hsound
  by_cases hdot : c = '.'
  · subst hdot
    rw [readDot_eq, List.getElem?_drop, List.getElem?_drop]
    -- The scanner looks for three dots from the first one on, the reader for two after it.
    have hdots : s.startsAt ['.', '.', '.'] s.pos = true
        ↔ s.source[s.pos + 1]? = some '.' ∧ s.source[s.pos + 2]? = some '.' := by
      rw [startsAt_cons, startsAt_pair, hc]
      exact and_iff_right rfl
    simp only [ne_eq, true_and, hdots, show ¬ '.' = '&' by decide, false_and, if_false, if_true]
    by_cases hnext : s.source[s.pos + 1]? = some '.'
    · have hlt : s.pos + 1 < s.source.length := (List.getElem?_eq_some_iff.mp hnext).1
      simp only [hnext, not_true, if_false, true_and, if_true]
      split
      · exact skipOperator_performs h (by omega)
      · exact skipOperator_performs h (by omega)
    · simp only [hnext, not_false_eq_true, if_true, if_false]
      exact skipDot_performs h hone
  · simp only [hdot, false_and, if_false]
    split
    · next hcall =>
      have hnext : s.pos + 1 < s.source.length := (List.getElem?_eq_some_iff.mp hcall.2).1
      exact skipDot_performs h (by omega)
    · exact skipOperator_performs h hone

/-! ## All of it -/

/-- A quotation mark opens a string. -/
private theorem quote_performs (h : s.Sound) (hpos : s.pos < s.source.length) (quote : Char) :
    PerformsAt s (s.view.literalDepth 1 (Frame.string quote))
      (s.view.skipLiteral 1 (Frame.string quote)) ()
      ((do
        skipString quote
        markValue) s) := by
  rw [bind_run]
  exact skipLiteral_performs h (skipString_skips quote h hpos)

/-- A word that starts `k` characters further on is skipped. -/
private theorem skipWord_performs {k : Nat} (h : s.Sound) (hk : s.pos + k ≤ s.source.length) :
    Performs s (s.view.skipValue (wordLength (s.source.drop (s.pos + k)) + k)) ()
      ((scanWhile isWordChar (s.pos + k) >>= skipValue) s) := by
  have hword := wordLength_le (s.source.drop (s.pos + k))
  rw [List.length_drop] at hword
  have hlast : s.pos + k + ((s.source.drop (s.pos + k)).takeWhile isWordChar).length
      = s.pos + (wordLength (s.source.drop (s.pos + k)) + k) := by
    rw [wordLength]
    omega
  rw [bind_run, scanWhile_run, andThen_ok, hlast]
  exact skipValue_performs h (by omega)

/-- The name of a variable is skipped. -/
private theorem variable_performs (h : s.Sound) (hpos : s.pos < s.source.length) :
    Performs s (s.view.readVariable (s.source.drop (s.pos + 1))) ()
      ((scanWhile isWordChar (if s.source[s.pos + 1]? = some '@' then s.pos + 2 else s.pos + 1)
        >>= skipValue) s) := by
  split
  · next hat =>
    have hlt : s.pos + 1 < s.source.length := (List.getElem?_eq_some_iff.mp hat).1
    rw [drop_eq_cons hat]
    exact skipWord_performs (k := 2) h hlt
  · next hat =>
    have hreading : s.view.readVariable (s.source.drop (s.pos + 1))
        = s.view.skipValue (wordLength (s.source.drop (s.pos + 1)) + 1) := by
      rw [← List.head?_drop] at hat
      rw [Reader.readVariable.eq_def]
      split
      · next hcons => exact absurd (by rw [hcons]; rfl) hat
      · rfl
    rw [hreading]
    exact skipWord_performs h hpos

/-- The name of a global variable is skipped, or the one character that stands for it. -/
private theorem global_performs (h : s.Sound) (hpos : s.pos < s.source.length) :
    Performs s (s.view.readGlobal (s.source.drop (s.pos + 1))) ()
      (if s.source[s.pos + 1]?.any isWordStart then
          (scanWhile isWordChar (s.pos + 1) >>= skipValue) s
        else skipValue (min (s.pos + 2) s.source.length) s) := by
  rw [Reader.readGlobal, List.head?_drop]
  split
  · exact skipWord_performs h hpos
  · rcases Nat.lt_or_ge s.source.length (s.pos + 2) with hlt | hge
    · -- The dollar sign ends the text.
      have hsound : s.SoundAt s.source.length := h.of_le (by omega) (by omega)
      have hview : { s with pos := s.source.length }.view = s.view.hop 2 := by
        rw [← view_goTo h]
        exact congrArg s.view.moveTo (cursorAt_of_length_le (Nat.le_of_lt hlt)).symm
      rw [Nat.min_eq_right (Nat.le_of_lt hlt), skipValue, bind_run, goTo_run, andThen_ok,
        Reader.skipValue, ← hview]
      exact .done rfl (follows_nil rfl rfl rfl rfl rfl) hsound rfl
    · rw [Nat.min_eq_left hge]
      exact skipValue_performs h (by omega)

/-- A less-than sign is read, and the announcement of a heredoc if it is one. -/
private theorem lessThan_performs (h : s.Sound) (hc : s.source[s.pos]? = some '<') :
    Performs s (s.view.readLessThan (s.source.drop (s.pos + 1))) ()
      ((do
        if ← tryHeredocAt '<' s.source[s.pos + 1]? then markValue
        else scanSign '<' s.source[s.pos + 1]?) s) := by
  have hpos : s.pos < s.source.length := (List.getElem?_eq_some_iff.mp hc).1
  have hsign : Performs s (s.view.skipOperator 1) () (scanSign '<' s.source[s.pos + 1]? s) :=
    scanSign_performs h hc
  rw [bind_run, tryHeredocAt, ite_run, tryHeredoc_run, pure_run, afterSpace_eq (Nat.le_of_lt hpos)]
  -- A heredoc has two less-than signs, an opening behind them, and a place where it may stand.
  by_cases hnext : s.source[s.pos + 1]? = some '<'
  · have hlt : s.pos + 1 < s.source.length := (List.getElem?_eq_some_iff.mp hnext).1
    rw [if_pos ⟨rfl, hnext⟩, drop_eq_cons hnext, Reader.readLessThan]
    cases hopening : Heredoc.opening? (s.source.drop (s.pos + 1 + 1)) with
    | none => exact hsign
    | some found =>
      have hn := opening?_le hopening
      rw [List.length_drop] at hn
      have hsound : s.SoundAt (s.pos + (found.2 + 2)) := h.of_le (by omega) (by omega)
      show Performs s (if s.valueExpected = true ∨ s.view.afterSpace = true then _ else _) () _
      dsimp only
      split
      · rw [andThen_ok, if_pos rfl, ← view_goTo h]
        exact .done rfl (follows_nil rfl rfl rfl rfl rfl) hsound rfl
      · exact hsign
  · have hreading : s.view.readLessThan (s.source.drop (s.pos + 1)) = s.view.skipOperator 1 := by
      rw [← List.head?_drop] at hnext
      rw [Reader.readLessThan.eq_def]
      split
      · next hcons => exact absurd (by rw [hcons]; rfl) hnext
      · rfl
    rw [if_neg fun hboth => hnext hboth.2, hreading]
    exact hsign

/-- A percent sign opens a literal, or is an operator. -/
private theorem percent_performs (h : s.Sound) (hc : s.source[s.pos]? = some '%') :
    PerformsAt s (s.view.depthAt '%' (s.source.drop (s.pos + 1)))
      (s.view.readPercent (s.source.drop (s.pos + 1))) ()
      (if s.operandMayStart ∧ s.atPercentLiteral then (do
          skipPercentLiteral
          markValue : Scanning Unit) s
        else scanSign '%' s.source[s.pos + 1]? s) := by
  have hpos : s.pos < s.source.length := (List.getElem?_eq_some_iff.mp hc).1
  have hsign : Performs s (s.view.skipOperator 1) () (scanSign '%' s.source[s.pos + 1]? s) :=
    scanSign_performs h hc
  rw [Reader.readPercent, Reader.depthAt, if_neg (by decide), if_neg (by decide), if_pos rfl,
    List.head?_drop, atPercentLiteral_eq, operandMayStart_eq (Nat.le_of_lt hpos)]
  -- Both look for the delimiter in the same way, and then ask whether an operand may start.
  cases hopening : percentOpening? (s.source.drop (s.pos + 1)) with
  | none =>
    rw [if_neg (by simp)]
    exact hsign.within rfl
  | some opening =>
    obtain ⟨type, delim, n⟩ := opening
    simp only [Option.isSome_some, and_true, bind_run]
    split
    · have hliteral := skips_markValue h (skipPercentLiteral_skips h hopening) fun r => by
        rw [afterPercent, afterPercent]
        split <;> rfl
      exact hliteral
    · exact hsign.within rfl

/-- A slash opens a regular expression, or is an operator. -/
private theorem slash_performs (h : s.Sound) (hc : s.source[s.pos]? = some '/') :
    PerformsAt s (s.view.depthAt '/' (s.source.drop (s.pos + 1)))
      (s.view.readSlash (s.source.drop (s.pos + 1))) ()
      (if s.operandMayStart then (do
          skipRegex
          markValue : Scanning Unit) s
        else scanSign '/' s.source[s.pos + 1]? s) := by
  have hpos : s.pos < s.source.length := (List.getElem?_eq_some_iff.mp hc).1
  rw [Reader.readSlash, Reader.depthAt, if_neg (by decide), if_neg (by decide),
    if_neg (by decide), if_pos rfl, List.head?_drop, operandMayStart_eq (Nat.le_of_lt hpos),
    bind_run]
  split
  · exact skips_markValue h (skipRegex_skips h hpos) fun _ => rfl
  · exact (scanSign_performs h hc).within rfl

/-- A question mark starts a character literal, or is an operator. -/
private theorem questionMark_performs (h : s.Sound) (hc : s.source[s.pos]? = some '?') :
    Performs s (s.view.readQuestionMark (s.source.drop (s.pos + 1))) ()
      (if s.valueExpected ∧ s.atCharLiteral then
          skipValue (s.pos + if s.startsAt ['\\'] (s.pos + 1) then 3 else 2) s
        else scanSign '?' s.source[s.pos + 1]? s) := by
  have hsign : Performs s (s.view.skipOperator 1) () (scanSign '?' s.source[s.pos + 1]? s) :=
    scanSign_performs h hc
  rw [Reader.readQuestionMark, characterLength?_eq]
  by_cases hliteral : s.atCharLiteral = true
  · rw [if_pos hliteral]
    simp only [hliteral, and_true]
    show Performs s (if s.valueExpected then _ else _) () _
    split
    · obtain ⟨c, hnext, -⟩ := (Option.any_eq_true _ _).mp hliteral
      have hlt : s.pos + 1 < s.source.length := (List.getElem?_eq_some_iff.mp hnext).1
      exact skipValue_performs h (by split <;> omega)
    · exact hsign
  · rw [if_neg hliteral, if_neg fun hboth => hliteral hboth.2]
    exact hsign

/-- Punctuation is read. -/
theorem scanPunctuation_performs {c : Char} (h : s.Sound) (hc : s.source[s.pos]? = some c) :
    PerformsAt s (s.view.depthAt c (s.source.drop (s.pos + 1)))
      (s.view.readPunctuation c (s.source.drop (s.pos + 1))) () (scanPunctuation c s) := by
  have hpos : s.pos < s.source.length := (List.getElem?_eq_some_iff.mp hc).1
  rw [scanPunctuation, bind_run, get_run, andThen_ok, Reader.readPunctuation]
  simp only [ite_run]
  -- The same cases in both, though the reader asks for a digit earlier than the scanner does.
  by_cases hquote : isQuote c = true
  · rw [if_pos hquote, if_pos hquote, Reader.depthAt, if_pos hquote]
    exact quote_performs h hpos c
  by_cases hdigit : c.isDigit = true
  · have hcolon : c ≠ ':' := by rintro rfl; exact absurd hdigit (by decide)
    have hat : c ≠ '@' := by rintro rfl; exact absurd hdigit (by decide)
    have hdollar : c ≠ '$' := by rintro rfl; exact absurd hdigit (by decide)
    have hpercent : c ≠ '%' := by rintro rfl; exact absurd hdigit (by decide)
    have hslash : c ≠ '/' := by rintro rfl; exact absurd hdigit (by decide)
    have hlength := numberLength_le (s.source.drop s.pos)
    rw [List.length_drop] at hlength
    rw [if_neg hquote, if_pos hdigit, if_neg hquote, if_neg hcolon, if_neg hat, if_neg hdollar,
      if_pos hdigit, bind_run, numberEnd_run, andThen_ok, ← drop_eq_cons hc]
    exact (skipValue_performs h (by omega)).within
      (Reader.depthAt_eq_zero hquote hcolon hpercent hslash _)
  rw [if_neg hquote, if_neg hdigit, if_neg hquote]
  by_cases hcolon : c = ':'
  · subst hcolon
    rw [if_pos rfl, if_pos rfl]
    exact scanColon_performs h hpos
  rw [if_neg hcolon, if_neg hcolon]
  by_cases hat : c = '@'
  · subst hat
    rw [if_pos rfl, if_pos rfl]
    exact (variable_performs h hpos).within rfl
  rw [if_neg hat, if_neg hat]
  by_cases hdollar : c = '$'
  · subst hdollar
    rw [if_pos rfl, if_pos rfl]
    exact (global_performs h hpos).within rfl
  rw [if_neg hdollar, if_neg hdollar, if_neg hdigit]
  by_cases hpercent : c = '%'
  · subst hpercent
    simp only [true_and]
    exact percent_performs h hc
  by_cases hslash : c = '/'
  · subst hslash
    simp only [true_and]
    exact slash_performs h hc
  -- What is left opens no literal.
  refine Performs.within ?_ (Reader.depthAt_eq_zero hquote hcolon hpercent hslash _)
  by_cases hmark : c = '?'
  · subst hmark
    simp only [true_and]
    exact questionMark_performs h hc
  simp only [hpercent, hslash, hmark, false_and, if_false]
  by_cases hless : c = '<'
  · subst hless
    exact lessThan_performs h hc
  · rw [if_neg hless, bind_run, tryHeredocAt, ite_run, if_neg fun hboth => hless hboth.1]
    exact scanSign_performs h hc

end Scanning

end ScopeTags.Source
