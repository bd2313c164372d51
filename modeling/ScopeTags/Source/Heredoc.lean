import ScopeTags.Source.Literal
import ScopeTags.Text.Numeral
import ScopeTags.Text.Uppercase

/-!
# Heredocs and embedded documents

A heredoc is announced in a line, and its body takes up the lines after that one, up to a line that
holds nothing but its terminator.  Several heredocs of one line have their bodies one after the
other.  An embedded document takes up the lines from `=begin` to `=end`.
-/

namespace ScopeTags.Source

/-- A heredoc that was announced.  The terminator of an indented one may have blanks around it. -/
structure Heredoc where
  terminator : List Char
  indented : Bool
deriving DecidableEq, Repr

namespace Heredoc

/-- Whether `line` ends the body. -/
def endsAt (h : Heredoc) (line : List Char) : Bool :=
  (if h.indented then Text.trim line else line) = h.terminator

/-- The terminator at the start of `cs` and how many characters it takes up.  It stands between
    quotes or is a word; the word of a heredoc that is not indented starts with a capital or an
    underscore. -/
def terminator? (indented : Bool) : List Char → Option (List Char × Nat)
  | [] => none
  | c :: cs =>
    if isQuote c then
      let name := cs.takeWhile fun d => d ≠ c ∧ d ≠ '\n'
      if cs[name.length]? = some c then some (name, name.length + 2) else none
    else if c = '_' ∨ (Text.isLetter c ∧ (indented ∨ Text.isUppercase c)) then
      let name := (c :: cs).takeWhile fun d => Text.isAlphanumeric d ∨ d = '_'
      some (name, name.length)
    else none

/-- The heredoc that `cs`, which stands just past `<<`, announces, and how many characters of `cs`
    that takes up. -/
def opening? (cs : List Char) : Option (Heredoc × Nat) :=
  match cs with
  | [] => none
  | c :: rest =>
    if c = '~' ∨ c = '-' then
      (terminator? true rest).map fun (terminator, n) => (⟨terminator, true⟩, n + 1)
    else (terminator? false cs).map fun (terminator, n) => (⟨terminator, false⟩, n)

end Heredoc

/-- Pass over the bodies of `heredocs`, one after the other, from the start of a line.  A body whose
    terminator does not come is reported with the line on which it starts. -/
def skipBodies : List Heredoc → Cursor → Cursor × List Event
  | [], k => (k, [])
  | h :: heredocs, k =>
    let (found, next) := k.linesThrough h.endsAt
    let (last, events) := skipBodies heredocs next
    (last, if found then events
      else .unterminated (.heredoc (String.ofList h.terminator)) k.line :: events)

theorem length_rest_skipBodies_le (heredocs : List Heredoc) (k : Cursor) :
    (skipBodies heredocs k).1.rest.length ≤ k.rest.length := by
  induction heredocs generalizing k with
  | nil => exact Nat.le_refl _
  | cons h heredocs ih =>
    exact Nat.le_trans (ih _) (Cursor.length_rest_linesThrough_le _ k)

/-- Whether `cs`, at the start of a line, starts an embedded document. -/
def startsDocument (cs : List Char) : Bool :=
  "=begin".toList.isPrefixOf cs && (cs[6]?.all Text.isBlank)

/-- Whether the line `cs` ends an embedded document. -/
def endsDocument (cs : List Char) : Bool :=
  "=end".toList.isPrefixOf cs && (cs[4]?.all Text.isBlank)

/-- Pass over an embedded document, from its first line. -/
def skipDocument (k : Cursor) : Cursor × List Event :=
  let (found, last) := k.nextLine.linesThrough endsDocument
  (last, if found then [] else [.unterminated .embeddedDocument k.line])

theorem length_rest_skipDocument_lt {k : Cursor} (h : k.rest ≠ []) :
    (skipDocument k).1.rest.length < k.rest.length :=
  Nat.lt_of_le_of_lt (Cursor.length_rest_linesThrough_le _ _) (Cursor.length_rest_nextLine_lt h)

/-- Whether `cs`, at the start of a line, starts with the marker that ends the program. -/
def startsEndMarker (cs : List Char) : Bool :=
  "__END__".toList.isPrefixOf cs && (cs[7]?.all fun c => c = '\n' || c = '\r')

end ScopeTags.Source
