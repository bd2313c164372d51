import ScopeTags.Source.Word

/-!
# Method definitions

What follows the keyword of a method definition: an optional receiver with a dot, the name of the
method, and, in an endless definition, optional parameters and an equals sign.
-/

namespace ScopeTags.Source

/-- How many spaces and tabs stand at the start of `cs`. -/
def spacesLength (cs : List Char) : Nat :=
  (cs.takeWhile isSpace).length

/-- How many characters the receiver at the start of `cs` and its dot have: zero if there is
    none. -/
def receiverLength (cs : List Char) : Nat :=
  -- `self` takes its dot whatever follows; any other receiver is not followed by two.
  if "self.".toList.isPrefixOf cs then 5
  else if cs.head?.any isWordStart then
    let n := wordLength cs
    match cs.drop n with
    | '.' :: rest => if rest.head? = some '.' then 0 else n + 1
    | _ => 0
  else 0

/-- How many characters the method name at the start of `cs` has: zero if there is none. -/
def methodNameLength (cs : List Char) : Nat :=
  if cs.head?.any isWordStart then
    let n := wordLength cs
    match cs.drop n with
    | '?' :: _ => n + 1
    | '!' :: _ => n + 1
    | '=' :: '(' :: _ => n + 1
    | _ => n
  else operatorLength cs

/-- What is left of a text after the parenthesis that closes the outermost one, where `depth` are
    open. -/
def dropParentheses : Nat → List Char → List Char
  | _, [] => []
  | depth, c :: cs =>
    if c = '(' then dropParentheses (depth + 1) cs
    else if c = ')' then if depth ≤ 1 then cs else dropParentheses (depth - 1) cs
    else dropParentheses depth cs

/-- The parameters, if there are any, and the spaces around them taken away. -/
def dropParameters (cs : List Char) : List Char :=
  match cs.dropWhile isSpace with
  | '(' :: rest => (dropParentheses 1 rest).dropWhile isSpace
  | rest => rest

/-- Whether a definition continues after its name with an equals sign and its only expression. -/
def isEndless (cs : List Char) : Bool :=
  match dropParameters cs with
  | '=' :: rest => rest.head?.all fun c => c ≠ '=' ∧ c ≠ '~' ∧ c ≠ '>'
  | _ => false

end ScopeTags.Source
