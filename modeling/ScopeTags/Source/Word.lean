import ScopeTags.Text.Numeral
import ScopeTags.Text.Uppercase

/-!
# Words, numbers and operators

How far a word, a constant path, a number or an operator at the start of a text reaches, and which
words are keywords.
-/

namespace ScopeTags.Source

/-- Whether a word may start with `c`. -/
def isWordStart (c : Char) : Bool :=
  c.isAlpha || c = '_' || 127 < c.toNat

/-- Whether `c` may stand in a word. -/
def isWordChar (c : Char) : Bool :=
  c.isAlphanum || c = '_' || 127 < c.toNat

/-- How many characters at the start of `cs` may stand in a word. -/
def wordLength (cs : List Char) : Nat :=
  (cs.takeWhile isWordChar).length

/-- Spaces and tabs. -/
def isSpace (c : Char) : Bool :=
  c = ' ' || c = '\t'

/-- Whether the first character of `cs` is uppercase. -/
def startsUppercase (cs : List Char) : Bool :=
  cs.head?.any Text.isUppercase

/-- The word at the start of `cs`.  A question or exclamation mark belongs to a word before it that
    starts with no capital, unless an equals sign follows. -/
def wordAt (cs : List Char) : List Char :=
  let word := cs.takeWhile isWordChar
  match cs.drop word.length with
  | c :: rest =>
    if (c = '?' ∨ c = '!') ∧ ¬startsUppercase cs ∧ rest.head? ≠ some '=' then word ++ [c] else word
  | [] => word

/-- How many characters at the start of `cs` continue a constant path, in segments of two colons and
    a word that starts with a capital. -/
def pathLength (cs : List Char) : Nat :=
  match cs with
  | ':' :: ':' :: c :: rest =>
    if Text.isUppercase c then
      let n := wordLength (c :: rest)
      2 + n + pathLength ((c :: rest).drop n)
    else 0
  | _ => 0
termination_by cs.length
decreasing_by
  simp only [List.length_drop, List.length_cons]
  omega

/-- How many characters at the start of `cs` belong to a number: letters, numerals, underscores and
    points before a digit. -/
def numberLength : List Char → Nat
  | [] => 0
  | c :: cs =>
    if Text.isAlphanumeric c ∨ c = '_' ∨ (c = '.' ∧ cs.head?.any Text.isDigit) then
      numberLength cs + 1
    else 0

/-- Operators that can be the name of a method, longer ones first. -/
def operatorNames : List String :=
  ["[]=", "<=>", "===", "[]", "==", "=~", "!=", "!~", "<<", ">>", "<=", ">=", "**", "+@", "-@",
   "+", "-", "*", "/", "%", "<", ">", "!", "~", "&", "|", "^", "\x60"]

/-- How many characters the operator name at the start of `cs` has: zero if there is none. -/
def operatorLength (cs : List Char) : Nat :=
  match operatorNames.find? fun name => name.toList.isPrefixOf cs with
  | some name => name.length
  | none => 0

/-- The reserved words. -/
def keywords : List String :=
  ["BEGIN", "END", "__ENCODING__", "__FILE__", "__LINE__", "alias", "and", "begin", "break", "case",
   "class", "def", "defined?", "do", "else", "elsif", "end", "ensure", "false", "for", "if", "in",
   "module", "next", "nil", "not", "or", "redo", "rescue", "retry", "return", "self", "super",
   "then", "true", "undef", "unless", "until", "when", "while", "yield"]

/-- Keywords that complete an operand, so that an `if` after them is a modifier. -/
def operandKeywords : List String :=
  ["__ENCODING__", "__FILE__", "__LINE__", "end", "false", "nil", "self", "true", "break", "next",
   "redo", "retry", "return", "super", "yield"]

/-- Keywords that open a block where an operand is expected, and are modifiers elsewhere. -/
def modifierKeywords : List String := ["if", "unless", "while", "until"]

/-- Keywords that always open a block. -/
def blockKeywords : List String := ["begin", "case", "for"]

/-- Keywords that start the header of a loop. -/
def loopKeywords : List String := ["while", "until", "for"]

end ScopeTags.Source
