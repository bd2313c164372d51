import ScopeTags.Token

/-!
# What reading a source brings up

Reading a source yields events in the order of the text: the tokens, and between them the remarks on
what is wrong with the text.  A literal that is never closed does not stop the reading by itself;
whoever follows the events decides whether to go on.
-/

namespace ScopeTags.Source

/-- The constructs that can still be open where the text ends. -/
inductive Unterminated where
  | literal
  | interpolation
  | regex
  | heredoc (terminator : String)
  | embeddedDocument
deriving DecidableEq, Repr

/-- The name of the construct. -/
def Unterminated.label : Unterminated → String
  | literal => "literal"
  | interpolation => "interpolation"
  | regex => "regex"
  | heredoc terminator => s!"heredoc {terminator}"
  | embeddedDocument => "embedded document"

/-- What reading a source brings up. -/
inductive Event where
  | token (token : Token)
  /-- A construct that started on `line` is still open where the text ends. -/
  | unterminated (what : Unterminated) (line : Nat)
  /-- An `end` on `line` closes nothing. -/
  | strayEnd (line : Nat)
  /-- So many blocks are still open where the text ends. -/
  | unclosedBlocks (count : Nat)
deriving DecidableEq, Repr

namespace Event

/-- The same event in a file. -/
def inFile (file : Option String) : Event → Event
  | token t => token (t.inFile file)
  | event => event

/-- The token, if the event is one. -/
def token? : Event → Option Token
  | token t => some t
  | _ => none

end Event

end ScopeTags.Source
