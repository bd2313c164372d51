import ScopeTags.Source.Transcript

/-!
# Programs

A program is a tree of items, one to a line: comments, statements, and bodies with a header and an
`end`.  `Program.text` writes a program out, with any indentation, and `Program.tokens` says which
tokens it stands for and where they are.  The lines and columns are those of the text: a line ends
at each newline, and a column counts the characters before it.
-/

namespace ScopeTags.Source

/-! ## Words and other texts -/

/-- The letters, digits and the underscore of ASCII. -/
def isPlainWordChar (c : Char) : Bool :=
  c.isAlphanum || c = '_'

/-- Whether `cs` is a word of ASCII whose first character is of class `first`. -/
def isWordFrom (first : Char → Bool) (cs : List Char) : Bool :=
  cs.head?.any first && cs.all isPlainWordChar

/-- A word that can name a variable or a method that is called. -/
def isVariable (cs : List Char) : Bool :=
  isWordFrom Char.isLower cs && String.ofList cs ∉ keywords

/-- A word with a capital. -/
def isCapitalized (cs : List Char) : Bool :=
  isWordFrom Char.isUpper cs

/-- A word that can be the name of a constant. -/
def isConstantName (cs : List Char) : Bool :=
  isCapitalized cs && String.ofList cs ≠ "BEGIN" && String.ofList cs ≠ "END"

/-- A word that can be the name of a method; keywords can be as well. -/
def isMethodWord (cs : List Char) : Bool :=
  isWordFrom (fun c => c.isAlpha || c = '_') cs

/-- A text that can stand between double quotes as it is. -/
def isQuotable : List Char → Bool
  | [] => true
  | c :: cs =>
    -- A hash sign before a brace would start an interpolation.
    c ≠ '"' && c ≠ '\\' && !(c = '#' && cs.head? = some '\x7b') && isQuotable cs

/-- A text that can follow the hash sign of a comment. -/
def isCommentText (cs : List Char) : Bool :=
  -- A carriage return at the end would count as a part of the line ending.
  '\n' ∉ cs && cs.getLast? ≠ some '\r'

/-- Texts of a class. -/
abbrev TextOf (p : List Char → Bool) : Type := { cs : List Char // p cs = true }

/-- The spaces and tabs at the start of a line. -/
abbrev Indent : Type := TextOf fun cs => cs.all isSpace

/-- A variable, or a method that is called. -/
abbrev Variable : Type := TextOf isVariable

/-- A constant, possibly inside of others. -/
structure ConstantPath where
  first : TextOf isConstantName
  more : List (TextOf isCapitalized)

/-- The path as it is written. -/
def ConstantPath.text (p : ConstantPath) : List Char :=
  p.first.val ++ p.more.flatMap fun segment => ':' :: ':' :: segment.val

/-- The name of a method, with the mark that it may end in. -/
structure MethodName where
  word : TextOf isMethodWord
  mark : TextOf fun cs => cs = [] || cs = ['?'] || cs = ['!']

/-- The name as it is written. -/
def MethodName.text (m : MethodName) : List Char := m.word.val ++ m.mark.val

/-- A line in the body of a heredoc, which is not the line of the terminator. -/
abbrev BodyLine (terminator : TextOf isCapitalized) : Type :=
  { line : List Char // '\n' ∉ line ∧ Text.trim line ≠ terminator.val }

/-! ## Lines in pieces -/

/-- A piece of a line: some text, and the token that it is, if it is one. -/
structure Piece where
  text : List Char
  token? : Option (Location → Token) := none

namespace Piece

/-- Text that is no token. -/
def silent (text : String) : Piece := { text := text.toList }

/-- A keyword that does nothing to scopes. -/
def keyword (word : String) : Piece :=
  { text := word.toList, token? := some (Token.keyword word (some .other) none) }

/-- The keyword of a construct. -/
def opening (word : String) (construct : Construct) : Piece :=
  { text := word.toList, token? := some (Token.keyword word (some .newScope) (some construct)) }

/-- An identifier. -/
def identifier (word : List Char) : Piece :=
  { text := word, token? := some (Token.identifier (String.ofList word)) }

/-- A constant. -/
def constant (path : List Char) : Piece :=
  { text := path, token? := some (Token.constant (String.ofList path)) }

/-- The text of the pieces. -/
def textOf (pieces : List Piece) : List Char := pieces.flatMap (·.text)

/-- The tokens of the pieces, where so many characters of the line come before them. -/
def tokensOf (line column : Nat) : List Piece → List Token
  | [] => []
  | p :: pieces =>
    (p.token?.map (· { line, column := column + 1 })).toList ++
      tokensOf line (column + p.text.length) pieces

end Piece

/-! ## Items -/

/-- A statement. -/
inductive Statement where
  | call (x : Variable)
  /-- A call with a condition after it. -/
  | conditional (x y : Variable)
  /-- An assignment of a string, which may go over several lines. -/
  | string (x : Variable) (body : TextOf isQuotable)
  /-- An assignment of a heredoc: its terminator, the lines of its body, and the indentation of the
      terminator after them. -/
  | heredoc (x : Variable) (terminator : TextOf isCapitalized)
      (lines : List (BodyLine terminator)) (indent : Indent)

namespace Statement

/-- The statement up to where its literal starts, if it has one. -/
def pieces : Statement → List Piece
  | call x => [.identifier x.val]
  | conditional x y =>
    [.identifier x.val, .silent " ", .keyword "if", .silent " ", .identifier y.val]
  | string x _ => [.identifier x.val, .silent " = "]
  | heredoc x _ _ _ => [.identifier x.val, .silent " = "]

/-- The literal at the end of the statement, if it has one. -/
def literal : Statement → List Char
  | call _ => []
  | conditional _ _ => []
  | string _ body => '"' :: body.val ++ ['"']
  | heredoc _ terminator lines indent =>
    '<' :: '<' :: '~' :: terminator.val ++ '\n' :: lines.flatMap (·.val ++ ['\n']) ++
      indent.val ++ terminator.val

end Statement

/-- The first line of a body. -/
inductive Header where
  /-- A conditional or a loop. -/
  | asking (keyword : { w : String // w ∈ ["if", "unless", "while", "until", "case"] })
      (x : Variable)
  | whileDo (x : Variable)
  | forIn (i x : Variable)
  | beginBlock
  | eachDo (x i : Variable)
  | singletonClass
  | moduleDef (name : ConstantPath)
  | classDef (name : ConstantPath)
  | subclassDef (name parent : ConstantPath)
  | method (name : MethodName)
  | selfMethod (name : MethodName)

namespace Header

/-- The kind of body that the header opens. -/
def block : Header → Block
  | asking .. | whileDo _ | forIn .. | beginBlock | eachDo .. => .plain
  | singletonClass => .singletonClass
  | moduleDef _ | classDef _ | subclassDef .. | method _ | selfMethod _ => .construct

/-- The header as it is written.  A method is one of the class where the innermost body around it
    that is more than a block is that of a singleton class. -/
def pieces (inSingleton : Bool) : Header → List Piece
  | asking keyword x => [.keyword keyword.val, .silent " ", .identifier x.val]
  | whileDo x =>
    [.keyword "while", .silent " ", .identifier x.val, .silent " ", .keyword "do"]
  | forIn i x =>
    [.keyword "for", .silent " ", .identifier i.val, .silent " ", .keyword "in", .silent " ",
      .identifier x.val]
  | beginBlock => [.keyword "begin"]
  | eachDo x i =>
    [.identifier x.val, .silent ".", .identifier "each".toList, .silent " ", .keyword "do",
      .silent " |", .identifier i.val, .silent "|"]
  | singletonClass => [.keyword "class", .silent " << ", .keyword "self"]
  | moduleDef name => [.opening "module" .moduleDef, .silent " ", .constant name.text]
  | classDef name => [.opening "class" .classDef, .silent " ", .constant name.text]
  | subclassDef name parent =>
    [.opening "class" .classDef, .silent " ", .constant name.text, .silent " < ",
      .constant parent.text]
  | method name =>
    [.opening "def" (if inSingleton then .method else .instanceMethod), .silent " ",
      .identifier name.text]
  | selfMethod name => [.opening "def" .method, .silent " self.", .identifier name.text]

end Header

/-- Whether a method inside of a body is one of the class, where `inSingleton` says the same of the
    place of the body. -/
def Block.singletonInside (inSingleton : Bool) : Block → Bool
  | .plain => inSingleton
  | .singletonClass => true
  | .construct => false

/-- The `end` of a body, on a line of its own. -/
def Block.ending (b : Block) : Piece :=
  { text := "end".toList
    token? :=
      some (Token.keyword "end" (some (if b = .construct then .scopeEnd else .other)) none) }

/-- A list of items. -/
inductive Program where
  | done
  /-- A comment: what stands after the hash sign. -/
  | comment (indent : Indent) (text : TextOf isCommentText) (rest : Program)
  | statement (indent : Indent) (s : Statement) (rest : Program)
  /-- A header, the items inside, and an `end`. -/
  | body (indent : Indent) (header : Header) (inner : Program) (endIndent : Indent)
      (rest : Program)

namespace Program

/-- The program as it is written. -/
def text : Program → List Char
  | done => []
  | comment indent text rest => indent.val ++ '#' :: text.val ++ '\n' :: rest.text
  | statement indent s rest =>
    indent.val ++ Piece.textOf s.pieces ++ s.literal ++ '\n' :: rest.text
  | body indent header inner endIndent rest =>
    -- The text of a header does not depend on where it stands.
    indent.val ++ Piece.textOf (header.pieces false) ++ '\n' :: inner.text ++
      endIndent.val ++ header.block.ending.text ++ '\n' :: rest.text

/-- How many lines the program has. -/
def lines (p : Program) : Nat := p.text.count '\n'

/-- The tokens of the program from `line` on. -/
def tokens (line : Nat) (inSingleton : Bool) : Program → List Token
  | done => []
  | comment indent text rest =>
    Token.comment (String.ofList ('#' :: text.val)) { line, column := indent.val.length + 1 } ::
      rest.tokens (line + 1) inSingleton
  | statement indent s rest =>
    -- A literal takes as many lines along as it has newlines.
    Piece.tokensOf line indent.val.length s.pieces ++
      rest.tokens (line + s.literal.count '\n' + 1) inSingleton
  | body indent header inner endIndent rest =>
    Piece.tokensOf line indent.val.length (header.pieces inSingleton) ++
      inner.tokens (line + 1) (header.block.singletonInside inSingleton) ++
      -- The `end` stands on the line after those of the items inside.
      Piece.tokensOf (line + 1 + inner.lines) endIndent.val.length [header.block.ending] ++
      rest.tokens (line + 1 + inner.lines + 1) inSingleton

end Program

end ScopeTags.Source
