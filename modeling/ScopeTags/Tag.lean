import ScopeTags.Text.Blank
import ScopeTags.Text.Numeral

/-!
# Tags and tag comments

A tag is a name with a value.  A comment carries a tag when, blanks around it aside, it consists of
one or more `#`, optional blanks, an `@` with the name, a colon, optional blanks, and a value on one
line: `# @domain: Billing` carries the value `Billing` for `domain`.
-/

namespace ScopeTags

/-- A name with a value, as documented for a scope. -/
structure Tag where
  name : String
  value : String
deriving DecidableEq, Repr

namespace Tag

/-- Whether a tag name may start with `c`. -/
def isNameStart (c : Char) : Bool :=
  c.isAlpha || c = '_'

/-- Whether `c` may stand in a tag name. -/
def isNameChar (c : Char) : Bool :=
  Text.isAlphanumeric c || c = '_' || c = '.' || c = '-'

/-- The tag in `cs`, which stands just past the `@` of a comment. -/
def ofBody? (cs : List Char) : Option Tag :=
  match cs.takeWhile isNameChar, cs.dropWhile isNameChar with
  | c :: name, ':' :: rest =>
    let value := rest.dropWhile Text.isBlank
    if isNameStart c ∧ value ≠ [] ∧ '\n' ∉ value then
      some ⟨String.ofList (c :: name), String.ofList value⟩
    else none
  | _, _ => none

/-- The tag that a comment carries, if any. -/
def ofComment? (text : String) : Option Tag :=
  match Text.trim text.toList with
  | '#' :: cs =>
    match (cs.dropWhile (· = '#')).dropWhile Text.isBlank with
    | '@' :: body => ofBody? body
    | _ => none
  | _ => none

end Tag

end ScopeTags
