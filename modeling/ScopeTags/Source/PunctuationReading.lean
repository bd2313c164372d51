import ScopeTags.Source.Reader

/-!
# Punctuation

Reading of all that is neither blank nor comment nor word: literals, variables, numbers, brackets
and operators.  None of it yields a token, but it decides how the words after it are read.
-/

namespace ScopeTags.Source

/-- The type and the delimiter of the percent literal that `cs`, just past the percent sign, opens,
    and how many characters the opening has with the sign. -/
def percentOpening? : List Char → Option (Char × Char × Nat)
  | [] => none
  | c :: cs =>
    if isPercentType c then
      match cs with
      | [] => none
      | delim :: _ =>
        if Text.isAlphanumeric delim ∨ Text.isBlank delim then none else some (c, delim, 3)
    else if Text.isAlphanumeric c ∨ Text.isBlank c ∨ c = '=' then none
    else some ('Q', c, 2)

/-- How many characters the character literal has of which `cs` is all but the question mark. -/
def characterLength? : List Char → Option Nat
  | [] => none
  | c :: cs =>
    if Text.isBlank c then none
    else if c = '\\' then some 3
    else if cs.head?.any fun d => Text.isAlphanumeric d || d = '_' then none
    else some 2

/-- How many characters a symbol has of which `cs` is all but the colon, if it is a word.  A word
    takes a mark or an equals sign after it, but not the one of an arrow. -/
def symbolLength (cs : List Char) : Nat :=
  let n := wordLength cs
  match cs.drop n with
  | '?' :: _ => n + 2
  | '!' :: _ => n + 2
  | '=' :: rest => if rest.head? = some '>' then n + 1 else n + 2
  | _ => n + 1

/-- The opening brackets. -/
def isOpening (c : Char) : Bool :=
  c = '(' || c = '[' || c = '\x7b'

/-- The closing brackets. -/
def isClosing (c : Char) : Bool :=
  c = ')' || c = ']' || c = '\x7d'

namespace Reader

/-- Whether a literal may start here, where `next` is the second character of it: an operand is
    expected, or a space stands between here and a bare identifier but none after the first
    character. -/
def operandMayStart (r : Reader) (next : Option Char) : Bool :=
  r.valueExpected ||
    (r.afterIdentifier && r.afterSpace && next.any fun c => !Text.isBlank c && c ≠ '=')

/-- Pass over `n` characters that complete an operand. -/
def skipValue (r : Reader) (n : Nat) : Reading := ([], (r.hop n).markValue)

/-- Pass over `n` characters that call for an operand. -/
def skipOperator (r : Reader) (n : Nat) : Reading := ([], (r.hop n).markOperator)

/-- Pass over `n` characters that call for the name of a method. -/
def skipDot (r : Reader) (n : Nat) : Reading := ([], (r.hop n).markDot)

/-- Read from a colon on, after which `cs` follows. -/
def readColon (r : Reader) (cs : List Char) : Reading :=
  match cs with
  | [] => r.skipOperator 1
  | c :: _ =>
    if c = ':' then r.skipDot 2
    else if c = '"' ∨ c = '\x27' then r.skipLiteral 2 (Frame.string c)
    else if isWordStart c then r.skipValue (symbolLength cs)
    else if r.valueExpected ∧ 0 < operatorLength cs then r.skipValue (operatorLength cs + 1)
    else r.skipOperator 1

/-- Read from a percent sign on, after which `cs` follows. -/
def readPercent (r : Reader) (cs : List Char) : Reading :=
  match percentOpening? cs with
  | some (type, delim, n) =>
    if r.operandMayStart cs.head? then
      let (events, next) := r.skipLiteral n (Frame.percent type delim)
      (events, if type = 'r' then next.skipFlags else next)
    else r.skipOperator 1
  | none => r.skipOperator 1

/-- Read from a slash on, after which `cs` follows. -/
def readSlash (r : Reader) (cs : List Char) : Reading :=
  if r.operandMayStart cs.head? then
    let (events, next) := r.skipLiteral 1 (Frame.regex false)
    (events, next.skipFlags)
  else r.skipOperator 1

/-- Read from a question mark on, after which `cs` follows. -/
def readQuestionMark (r : Reader) (cs : List Char) : Reading :=
  match characterLength? cs with
  | some n => if r.valueExpected then r.skipValue n else r.skipOperator 1
  | none => r.skipOperator 1

/-- Read from a less-than sign on, after which `cs` follows.  Two of them announce a heredoc where
    an operand is expected or a space comes before; elsewhere they are an operator. -/
def readLessThan (r : Reader) (cs : List Char) : Reading :=
  match cs with
  | '<' :: rest =>
    match Heredoc.opening? rest with
    | some (heredoc, n) =>
      if r.valueExpected ∨ r.afterSpace then
        -- The bodies follow in the order of the announcements.
        ([], { (r.hop (n + 2)).markValue with heredocs := r.heredocs ++ [heredoc] })
      else r.skipOperator 1
    | none => r.skipOperator 1
  | _ => r.skipOperator 1

/-- Read from a dot on, after which `cs` follows.  Two or three dots are a range. -/
def readDot (r : Reader) (cs : List Char) : Reading :=
  match cs with
  | '.' :: '.' :: _ => r.skipOperator 3
  | '.' :: _ => r.skipOperator 2
  | _ => r.skipDot 1

/-- Read a semicolon, which ends a statement. -/
def readSemicolon (r : Reader) : Reading :=
  let (ends, next) := (r.hop 1).closeEndless
  (ends, next.markOperator)

/-- Read from the `@` of a variable on, after which `cs` follows. -/
def readVariable (r : Reader) (cs : List Char) : Reading :=
  match cs with
  | '@' :: cs => r.skipValue (wordLength cs + 2)
  | cs => r.skipValue (wordLength cs + 1)

/-- Read from the dollar sign of a global variable on, after which `cs` follows.  Where no word
    follows, one character does, whatever it is. -/
def readGlobal (r : Reader) (cs : List Char) : Reading :=
  r.skipValue (if cs.head?.any isWordStart then wordLength cs + 1 else 2)

/-- Read from a bracket or an operator `c` on, after which `cs` follows. -/
def readSign (r : Reader) (c : Char) (cs : List Char) : Reading :=
  if isOpening c then ([], { (r.hop 1).markOperator with depth := r.depth + 1 })
  else if isClosing c then ([], { (r.hop 1).markValue with depth := r.depth - 1 })
  else if c = ';' then r.readSemicolon
  else if c = '.' then r.readDot cs
  else if c = '&' ∧ cs.head? = some '.' then r.skipDot 2
  else r.skipOperator 1

/-- Read from the character `c` on, after which `cs` follows. -/
def readPunctuation (r : Reader) (c : Char) (cs : List Char) : Reading :=
  if isQuote c then r.skipLiteral 1 (Frame.string c)
  else if c.isDigit then r.skipValue (numberLength (c :: cs))
  else if c = ':' then r.readColon cs
  else if c = '@' then r.readVariable cs
  else if c = '$' then r.readGlobal cs
  else if c = '%' then r.readPercent cs
  else if c = '/' then r.readSlash cs
  else if c = '?' then r.readQuestionMark cs
  else if c = '<' then r.readLessThan cs
  else r.readSign c cs

end Reader

end ScopeTags.Source
