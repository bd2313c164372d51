import ScopeTags.Source.Step

/-!
# Every step takes a character

Reading one piece of a text leaves less of it to read, so reading comes to an end.

## Key results

- `Reader.readPunctuation_shorter` and `Reader.readWord_shorter`: punctuation and words take at
  least one character
- `Reader.read_shorter`: so does whatever stands at a character
- `Reader.step?_shorter`: so does every step
-/

namespace ScopeTags.Source

namespace Reader

/-- A hop of at least one character leaves less to read. -/
theorem hop_shorter {r : Reader} {n : Nat} (h : r.rest ≠ []) (hn : 0 < n) :
    (r.hop n).rest.length < r.rest.length := by
  have := List.length_pos_iff.mpr h
  rw [rest_hop, List.length_drop]
  omega

theorem skipLiteral_shorter {r : Reader} {n : Nat} (frame : Nat → Frame) (h : r.rest ≠ [])
    (hn : 0 < n) : (r.skipLiteral n frame).2.rest.length < r.rest.length := by
  have := List.length_pos_iff.mpr h
  have := length_rest_skipLiteral_le r n frame
  omega

theorem symbolLength_pos (cs : List Char) : 0 < symbolLength cs := by
  rw [symbolLength]
  split <;> try omega
  split <;> omega

theorem percentOpening?_pos {cs : List Char} {type delim : Char} {n : Nat}
    (h : percentOpening? cs = some (type, delim, n)) : 0 < n := by
  unfold percentOpening? at h
  grind

theorem characterLength?_pos {cs : List Char} {n : Nat} (h : characterLength? cs = some n) :
    0 < n := by
  unfold characterLength? at h
  grind

theorem numberLength_pos {c : Char} {cs : List Char} (h : c.isDigit) :
    0 < numberLength (c :: cs) := by
  have hn : c.toNat < 128 := by
    simp only [Char.isDigit, Bool.and_eq_true, decide_eq_true_eq] at h
    exact Nat.lt_of_le_of_lt (UInt32.le_iff_toNat_le.mp h.2) (by decide)
  have ha : Text.isAlphanumeric c := by
    simp [Text.isAlphanumeric, Text.isNumeral, hn, h]
  simp [numberLength, ha]

theorem readColon_shorter {r : Reader} (cs : List Char) (h : r.rest ≠ []) :
    (r.readColon cs).2.rest.length < r.rest.length := by
  unfold readColon
  split
  · exact hop_shorter h (by decide)
  · split
    · exact hop_shorter h (by decide)
    · split
      · exact skipLiteral_shorter _ h (by decide)
      · split
        · exact hop_shorter h (symbolLength_pos _)
        · split
          · exact hop_shorter h (Nat.succ_pos _)
          · exact hop_shorter h (by decide)

theorem readPercent_shorter {r : Reader} (cs : List Char) (h : r.rest ≠ []) :
    (r.readPercent cs).2.rest.length < r.rest.length := by
  unfold readPercent
  split
  · next type delim n hn =>
    split
    · have hlit := skipLiteral_shorter (Frame.percent type delim) h (percentOpening?_pos hn)
      dsimp only
      split
      · exact Nat.lt_of_le_of_lt (length_rest_skipFlags_le _) hlit
      · exact hlit
    · exact hop_shorter h (by decide)
  · exact hop_shorter h (by decide)

theorem readSlash_shorter {r : Reader} (cs : List Char) (h : r.rest ≠ []) :
    (r.readSlash cs).2.rest.length < r.rest.length := by
  unfold readSlash
  split
  · exact Nat.lt_of_le_of_lt (length_rest_skipFlags_le _)
      (skipLiteral_shorter (Frame.regex false) h (by decide))
  · exact hop_shorter h (by decide)

theorem readQuestionMark_shorter {r : Reader} (cs : List Char) (h : r.rest ≠ []) :
    (r.readQuestionMark cs).2.rest.length < r.rest.length := by
  unfold readQuestionMark
  split
  · next n hn =>
    split
    · exact hop_shorter h (characterLength?_pos hn)
    · exact hop_shorter h (by decide)
  · exact hop_shorter h (by decide)

theorem readLessThan_shorter {r : Reader} (cs : List Char) (h : r.rest ≠ []) :
    (r.readLessThan cs).2.rest.length < r.rest.length := by
  unfold readLessThan
  split
  · split
    · split
      · exact hop_shorter h (Nat.succ_pos _)
      · exact hop_shorter h (by decide)
    · exact hop_shorter h (by decide)
  · exact hop_shorter h (by decide)

theorem readDot_shorter {r : Reader} (cs : List Char) (h : r.rest ≠ []) :
    (r.readDot cs).2.rest.length < r.rest.length := by
  unfold readDot
  split <;> exact hop_shorter h (by decide)

theorem readSemicolon_shorter {r : Reader} (h : r.rest ≠ []) :
    r.readSemicolon.2.rest.length < r.rest.length := by
  simp only [readSemicolon, rest_markOperator, rest_closeEndless]
  exact hop_shorter h (by decide)

theorem readVariable_shorter {r : Reader} (cs : List Char) (h : r.rest ≠ []) :
    (r.readVariable cs).2.rest.length < r.rest.length := by
  unfold readVariable
  split <;> exact hop_shorter h (Nat.succ_pos _)

theorem readGlobal_shorter {r : Reader} (cs : List Char) (h : r.rest ≠ []) :
    (r.readGlobal cs).2.rest.length < r.rest.length := by
  refine hop_shorter h ?_
  split
  · exact Nat.succ_pos _
  · decide

theorem readSign_shorter {r : Reader} (c : Char) (cs : List Char) (h : r.rest ≠ []) :
    (r.readSign c cs).2.rest.length < r.rest.length := by
  unfold readSign
  split
  · exact hop_shorter h (by decide)
  split
  · exact hop_shorter h (by decide)
  split
  · exact readSemicolon_shorter h
  split
  · exact readDot_shorter cs h
  split <;> exact hop_shorter h (by decide)

theorem readPunctuation_shorter {r : Reader} (c : Char) (cs : List Char) (h : r.rest ≠ []) :
    (r.readPunctuation c cs).2.rest.length < r.rest.length := by
  unfold readPunctuation
  split
  · exact skipLiteral_shorter _ h (by decide)
  split
  · next hd => exact hop_shorter h (numberLength_pos hd)
  split
  · exact readColon_shorter cs h
  split
  · exact readVariable_shorter cs h
  split
  · exact readGlobal_shorter cs h
  split
  · exact readPercent_shorter cs h
  split
  · exact readSlash_shorter cs h
  split
  · exact readQuestionMark_shorter cs h
  split
  · exact readLessThan_shorter cs h
  · exact readSign_shorter c cs h

theorem wordAt_ne_nil {c : Char} {cs : List Char} (h : isWordStart c) : wordAt (c :: cs) ≠ [] := by
  have hc : isWordChar c := by
    simp only [isWordStart, isWordChar, Char.isAlphanum, Bool.or_eq_true] at h ⊢
    rcases h with (h | h) | h <;> simp [h]
  have hw : (c :: cs).takeWhile isWordChar ≠ [] := by simp [hc]
  unfold wordAt
  dsimp only
  split
  · split
    · simp
    · exact hw
  · exact hw

@[simp] theorem rest_openDefinition (r : Reader) (endless : Bool) :
    (r.openDefinition endless).rest = r.rest := by
  cases endless <;> rfl

theorem readDefinition_shorter {r : Reader} (h : r.rest ≠ []) :
    r.readDefinition.2.rest.length < r.rest.length := by
  have := List.length_pos_iff.mpr h
  simp only [readDefinition]
  split <;>
    simp only [rest_markValue, rest_markOperator, rest_openDefinition, rest_hop,
      List.length_drop] <;> omega

theorem readClass_shorter {r : Reader} (h : r.rest ≠ []) :
    r.readClass.2.rest.length < r.rest.length := by
  unfold readClass
  dsimp only
  split <;> exact hop_shorter h (by decide)

theorem readEnd_shorter {r : Reader} (h : r.rest ≠ []) :
    r.readEnd.2.rest.length < r.rest.length := by
  unfold readEnd
  split <;> exact hop_shorter h (by decide)

@[simp] theorem rest_openBlock (r : Reader) (word : String) : (r.openBlock word).rest = r.rest := by
  rw [openBlock]
  split <;> rfl

@[simp] theorem rest_openBlockOf (r : Reader) (word : String) :
    (r.openBlockOf word).rest = r.rest := by
  rw [openBlockOf]
  split
  · split
    · exact rest_openBlock r word
    · rfl
  · split
    · exact rest_openBlock r word
    · split
      · split <;> rfl
      · rfl

theorem readOtherKeyword_shorter {r : Reader} {word : String} (h : r.rest ≠ [])
    (hw : 0 < word.length) : (r.readOtherKeyword word).2.rest.length < r.rest.length := by
  have := List.length_pos_iff.mpr h
  simp only [readOtherKeyword]
  split <;>
    simp only [rest_markValue, rest_markOperator, rest_hop, rest_openBlockOf, List.length_drop] <;>
    omega

theorem readKeyword_shorter {r : Reader} {word : String} (h : r.rest ≠ [])
    (hw : 0 < word.length) : (r.readKeyword word).2.rest.length < r.rest.length := by
  rw [readKeyword]
  split
  · exact readDefinition_shorter h
  split
  · exact hop_shorter h (by decide)
  split
  · exact readClass_shorter h
  split
  · exact readEnd_shorter h
  · exact readOtherKeyword_shorter h hw

theorem readWord_shorter {r : Reader} {c : Char} {cs : List Char} (h : r.rest = c :: cs)
    (hc : isWordStart c) : r.readWord.2.rest.length < r.rest.length := by
  have hr : r.rest ≠ [] := by simp [h]
  have hw : 0 < (wordAt r.rest).length := by
    rw [h]
    exact List.length_pos_iff.mpr (wordAt_ne_nil hc)
  simp only [readWord]
  split
  · split
    · exact hop_shorter hr (by omega)
    · exact hop_shorter hr hw
  split
  · exact hop_shorter hr (Nat.succ_pos _)
  split
  · exact readKeyword_shorter hr (by simpa using hw)
  split
  · exact hop_shorter hr (by omega)
  · exact hop_shorter hr hw

theorem readComment_shorter {r : Reader} {c : Char} {cs : List Char} (h : r.rest = c :: cs)
    (hc : c ≠ '\n') : r.readComment.2.rest.length < r.rest.length := by
  refine hop_shorter (by simp [h]) ?_
  simp [h, hc]

theorem readNewline_shorter {r : Reader} (h : r.rest ≠ []) :
    r.readNewline.2.rest.length < r.rest.length := by
  simp only [readNewline, rest_markOperator, rest_closeEndless, rest_moveTo]
  exact Nat.lt_of_le_of_lt (length_rest_skipBodies_le _ _) (Cursor.length_rest_nextLine_lt h)

theorem read_shorter {r : Reader} {c : Char} {cs : List Char} (h : r.rest = c :: cs) :
    (r.read c cs).2.rest.length < r.rest.length := by
  have hr : r.rest ≠ [] := by simp [h]
  rw [read]
  split
  · exact readNewline_shorter hr
  next hnl =>
  split
  · exact hop_shorter hr (by decide)
  split
  · refine Nat.lt_of_le_of_lt (Cursor.length_rest_nextLine_le _) ?_
    exact hop_shorter hr (by decide)
  split
  · exact readComment_shorter h hnl
  split
  · next hc => exact readWord_shorter h hc
  · exact readPunctuation_shorter c cs hr

/-- Every step takes at least one character. -/
theorem step?_shorter {r next : Reader} {events : List Event} (h : r.step? = some (events, next)) :
    next.rest.length < r.rest.length := by
  rw [step?] at h
  split at h
  · cases h
  · next c cs hr =>
    split at h
    · cases h
    · split at h
      · simp only [Option.some.injEq, Prod.mk.injEq] at h
        rw [← h.2]
        exact length_rest_skipDocument_lt (by simp [hr])
      · simp only [Option.some.injEq] at h
        rw [show next = (events, next).2 from rfl, ← h]
        exact read_shorter hr

end Reader

end ScopeTags.Source
