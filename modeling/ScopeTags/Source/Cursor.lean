import ScopeTags.Location
import ScopeTags.Text.Blank

/-!
# Positions in a source text

A `Place` says how far a text has been read, and a `Cursor` is a place with the text that is left.
The line number grows where a newline is read as the end of a line (`Place.past`).  Some tokens take
the characters after them whatever they are; a newline among those ends no line (`Place.along`).
-/

namespace ScopeTags.Source

/-- How far a text has been read: the characters read, last one first, the number of the line, and
    how many characters were read since that line began. -/
structure Place where
  before : List Char := []
  line : Nat := 1
  column : Nat := 0
deriving DecidableEq, Repr

namespace Place

/-- The place after one more character, where a newline ends the line. -/
def past (p : Place) (c : Char) : Place :=
  if c = '\n' then ⟨c :: p.before, p.line + 1, 0⟩ else ⟨c :: p.before, p.line, p.column + 1⟩

/-- The place after more characters of the same line. -/
def along (p : Place) (cs : List Char) : Place :=
  ⟨cs.reverse ++ p.before, p.line, p.column + cs.length⟩

/-- The location of the next character. -/
def location (p : Place) : Location := ⟨p.line, p.column + 1, none⟩

end Place

/-- A place with the text that is left to read. -/
structure Cursor extends Place where
  rest : List Char
deriving DecidableEq, Repr

namespace Cursor

/-- The cursor after `n` more characters of the same line, or at the end of the text. -/
def hop (k : Cursor) (n : Nat) : Cursor :=
  { toPlace := k.along (k.rest.take n), rest := k.rest.drop n }

@[simp] theorem rest_hop (k : Cursor) (n : Nat) : (k.hop n).rest = k.rest.drop n := rfl

/-- What is left of the current line, without the carriage returns at its end. -/
def currentLine (k : Cursor) : List Char :=
  Text.trimEnd (· = '\r') (k.rest.takeWhile (· ≠ '\n'))

/-- The cursor at the start of the next line, or at the end of the text. -/
def nextLine (k : Cursor) : Cursor :=
  let line := k.rest.takeWhile (· ≠ '\n')
  match k.rest.dropWhile (· ≠ '\n') with
  | [] => { toPlace := k.along line, rest := [] }
  | c :: rest => { toPlace := (k.along line).past c, rest }

theorem length_rest_nextLine_lt {k : Cursor} (h : k.rest ≠ []) :
    k.nextLine.rest.length < k.rest.length := by
  have hle := (List.dropWhile_suffix (l := k.rest) (fun c => decide (c ≠ '\n'))).length_le
  have hpos := List.length_pos_iff.mpr h
  rw [nextLine]
  split
  · simpa using hpos
  · next hc =>
    rw [hc] at hle
    simp only [List.length_cons] at hle
    exact hle

theorem length_rest_nextLine_le (k : Cursor) : k.nextLine.rest.length ≤ k.rest.length := by
  by_cases h : k.rest = []
  · simp [nextLine, h]
  · exact Nat.le_of_lt (length_rest_nextLine_lt h)

/-- Read lines up to and including the first one that `ends` accepts.  The answer says whether there
    was one; if not, the text has been read to its end. -/
def linesThrough (ends : List Char → Bool) (k : Cursor) : Bool × Cursor :=
  if _h : k.rest = [] then (false, k)
  else if ends k.currentLine then (true, k.nextLine)
  else linesThrough ends k.nextLine
termination_by k.rest.length
decreasing_by exact length_rest_nextLine_lt _h

theorem length_rest_linesThrough_le (ends : List Char → Bool) (k : Cursor) :
    (k.linesThrough ends).2.rest.length ≤ k.rest.length := by
  fun_induction linesThrough ends k with
  | case1 k h => exact Nat.le_refl _
  | case2 k h hends => exact length_rest_nextLine_le k
  | case3 k h hends ih => exact Nat.le_trans ih (length_rest_nextLine_le k)

end Cursor

end ScopeTags.Source
