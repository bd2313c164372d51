import ScopeTags.Location
import ScopeTags.Tag
import ScopeTags.Text.Quoted

/-!
# Tokens

A source text in Ruby is read as a sequence of comments, keywords, identifiers and constants; all
else in it is passed over.  A token of any make can be put together by hand.  `Token.comment`,
`Token.keyword`, `Token.identifier` and `Token.constant` fill in what follows from the text.
-/

namespace ScopeTags

/-- The constructs that a scope can stand for. -/
inductive Construct where
  | moduleDef
  | classDef
  /-- A method of the module or class itself. -/
  | method
  /-- A method of the instances. -/
  | instanceMethod
deriving DecidableEq, Repr

namespace Construct

/-- The name of the construct. -/
def label : Construct → String
  | moduleDef => "module"
  | classDef => "class"
  | method => "method"
  | instanceMethod => "instance_method"

end Construct

/-- What a keyword does to scopes. -/
inductive KeywordClass where
  /-- The keyword introduces a construct. -/
  | newScope
  /-- The keyword ends the innermost construct. -/
  | scopeEnd
  | other
deriving DecidableEq, Repr

namespace KeywordClass

/-- The name of the class. -/
def label : KeywordClass → String
  | newScope => "NEW_SCOPE"
  | scopeEnd => "SCOPE_END"
  | other => "OTHER"

/-- The class of a keyword, going by its text. -/
def ofText : String → KeywordClass
  | "module" | "class" | "def" => newScope
  | "end" => scopeEnd
  | _ => other

end KeywordClass

/-- The construct that a keyword introduces, going by its text. -/
def Construct.ofText? : String → Option Construct
  | "module" => some moduleDef
  | "class" => some classDef
  | "def" => some instanceMethod
  | _ => none

/-- The kinds of token. -/
inductive TokenKind where
  | comment
  | keyword
  | identifier
  | constant
deriving DecidableEq, Repr

namespace TokenKind

/-- The name of the kind. -/
def label : TokenKind → String
  | comment => "COMMENT"
  | keyword => "KEYWORD"
  | identifier => "IDENTIFIER"
  | constant => "CONSTANT"

end TokenKind

/-- A token. -/
structure Token where
  kind : TokenKind
  text : String
  tagName : Option String := none
  tagValue : Option String := none
  construct : Option Construct := none
  keywordClass : Option KeywordClass := none
  location : Location := {}
deriving DecidableEq, Repr

namespace Token

/-- A comment, with the tag that it carries. -/
def comment (text : String) (location : Location) : Token :=
  let tag := Tag.ofComment? text
  { kind := .comment, text, location, tagName := tag.map (·.name), tagValue := tag.map (·.value) }

/-- A keyword.  A class that is not given follows from the text, and so does the construct of a
    keyword that introduces one. -/
def keyword (text : String) (keywordClass : Option KeywordClass) (construct : Option Construct)
    (location : Location) : Token :=
  let cls := keywordClass.getD (KeywordClass.ofText text)
  { kind := .keyword, text, location, keywordClass := some cls,
    construct := construct.or (if cls = .newScope then Construct.ofText? text else none) }

/-- An identifier. -/
def identifier (text : String) (location : Location) : Token :=
  { kind := .identifier, text, location }

/-- A constant. -/
def constant (text : String) (location : Location) : Token :=
  { kind := .constant, text, location }

/-- The same token in a file. -/
def inFile (file : Option String) (t : Token) : Token :=
  { t with location := { t.location with file } }

/-- Whether the token is a comment that carries a tag. -/
def isTagComment (t : Token) : Bool :=
  t.kind = .comment ∧ t.tagName.isSome

/-- Whether the token can give a scope its name. -/
def isNameCandidate (t : Token) : Bool :=
  t.kind = .identifier ∨ t.kind = .constant

/-- Whether the token is a keyword that ends the innermost construct. -/
def isScopeEnd (t : Token) : Bool :=
  t.kind = .keyword ∧ t.keywordClass = some .scopeEnd

/-- A text of at most twenty characters: a longer one keeps its first seventeen and gets dots. -/
def shorten (text : String) : String :=
  let cs := text.toList
  if 20 < cs.length then String.ofList (cs.take 17 ++ ['.', '.', '.']) else text

/-- The token in one line. -/
def render (t : Token) : String :=
  let text := Text.quoted (shorten t.text)
  let kind := t.kind.label
  s!"LexicalToken({kind}, {text}, {t.location.line}:{t.location.column})"

end Token

end ScopeTags
