import ScopeTags.Keyed
import ScopeTags.Text.Hex

/-!
# JSON

JSON values with integers for numbers, and the text of a value.  The text uses printable ASCII
only: other characters are written by their code in UTF-16.  With an indentation each member of an
array or an object stands on a line of its own.
-/

namespace ScopeTags

/-- A JSON value.  An object keeps its members in the order given. -/
inductive Json where
  | null
  | bool (value : Bool)
  | number (value : Int)
  | string (value : String)
  | array (items : List Json)
  | object (members : List (String × Json))
deriving Repr, Inhabited

namespace Json

/-- A code unit of UTF-16 as an escape. -/
def escapeUnit (n : Nat) : List Char := '\\' :: 'u' :: Text.hex 4 n

/-- How `c` is written in a string. -/
def escape (c : Char) : List Char :=
  if c = '"' then ['\\', '"']
  else if c = '\\' then ['\\', '\\']
  else if c = '\n' then ['\\', 'n']
  else if c = '\r' then ['\\', 'r']
  else if c = '\t' then ['\\', 't']
  else if c = '\x0c' then ['\\', 'f']
  else if c = '\x08' then ['\\', 'b']
  else if 0x20 ≤ c.toNat ∧ c.toNat ≤ 0x7e then [c]
  else if c.toNat < 0x10000 then escapeUnit c.toNat
  else
    -- Beyond the first plane a character is a pair of surrogates.
    let n := c.toNat - 0x10000
    escapeUnit (0xd800 + n / 0x400) ++ escapeUnit (0xdc00 + n % 0x400)

/-- The text of a string. -/
def quote (s : String) : List Char :=
  '"' :: s.toList.flatMap escape ++ ['"']

/-- What stands between a bracket and a member at depth `level`. -/
def lineBreak (indent : Option Int) (level : Nat) : List Char :=
  match indent with
  | none => []
  | some width => '\n' :: List.replicate (width.toNat * level) ' '

/-- What stands between two members at depth `level`. -/
def separator (indent : Option Int) (level : Nat) : List Char :=
  match indent with
  | none => [',', ' ']
  | some _ => ',' :: lineBreak indent level

mutual

/-- The text of a value that stands at depth `level`. -/
def chars (indent : Option Int) (level : Nat) : Json → List Char
  | null => "null".toList
  | bool true => "true".toList
  | bool false => "false".toList
  | number n => (toString n).toList
  | string s => quote s
  | array [] => ['[', ']']
  | array (item :: items) =>
    '[' :: lineBreak indent (level + 1) ++ chars indent (level + 1) item
      ++ itemChars indent (level + 1) items ++ lineBreak indent level ++ [']']
  | object [] => ['\x7b', '\x7d']
  | object ((key, value) :: members) =>
    '\x7b' :: lineBreak indent (level + 1) ++ quote key ++ [':', ' ']
      ++ chars indent (level + 1) value ++ memberChars indent (level + 1) members
      ++ lineBreak indent level ++ ['\x7d']

/-- The text of the items of an array after the first. -/
def itemChars (indent : Option Int) (level : Nat) : List Json → List Char
  | [] => []
  | item :: items =>
    separator indent level ++ chars indent level item ++ itemChars indent level items

/-- The text of the members of an object after the first. -/
def memberChars (indent : Option Int) (level : Nat) : List (String × Json) → List Char
  | [] => []
  | (key, value) :: members =>
    separator indent level ++ quote key ++ [':', ' '] ++ chars indent level value
      ++ memberChars indent level members

end

/-- The text of a value: in one line, or indented by so many spaces a level. -/
def render (indent : Option Int) (value : Json) : String :=
  String.ofList (chars indent 0 value)

mutual

/-- The value with the members of every object inside of it in increasing order of their keys. -/
def sorted : Json → Json
  | array items => array (sortedItems items)
  | object members => object (Keyed.sort (sortedMembers members))
  | value => value

/-- The items of an array, each of them sorted. -/
def sortedItems : List Json → List Json
  | [] => []
  | item :: items => sorted item :: sortedItems items

/-- The members of an object with their values sorted. -/
def sortedMembers : List (String × Json) → List (String × Json)
  | [] => []
  | (key, value) :: members => (key, sorted value) :: sortedMembers members

end

/-- The value, or null where there is none. -/
def ofOption {α : Type} (f : α → Json) : Option α → Json
  | none => null
  | some a => f a

end Json

end ScopeTags
