import ScopeTags.Text.Hex
import ScopeTags.Text.Printable

/-!
# Quoted text

Messages show a text between quotes.  The quote is a single one unless the text holds a single
quote and no double one.  The quote in use and the backslash are written with a backslash before
them, line ends and tabs by their letter, and every other character that is not printable by its
code point.
-/

namespace ScopeTags.Text

/-- The quote that encloses `cs`. -/
def quoteFor (cs : List Char) : Char :=
  if '\x27' ∈ cs ∧ '"' ∉ cs then '"' else '\x27'

/-- The code point of a character, in the shortest of the three escape forms that holds it. -/
def escapeCode (n : Nat) : List Char :=
  if n < 0x100 then '\\' :: 'x' :: hex 2 n
  else if n < 0x10000 then '\\' :: 'u' :: hex 4 n
  else '\\' :: 'U' :: hex 8 n

/-- How `c` is written between two quotes `q`. -/
def escapeWithin (q c : Char) : List Char :=
  if c = q ∨ c = '\\' then ['\\', c]
  else if c = '\n' then ['\\', 'n']
  else if c = '\r' then ['\\', 'r']
  else if c = '\t' then ['\\', 't']
  else if isPrintable c then [c]
  else escapeCode c.toNat

/-- The text between quotes. -/
def quoted (s : String) : String :=
  let q := quoteFor s.toList
  String.ofList (q :: s.toList.flatMap (escapeWithin q) ++ [q])

end ScopeTags.Text
