import ScopeTags.Source.PunctuationReading
import ScopeTags.Source.WordReading

/-!
# One step of reading

A source is a text in Ruby, of which as much is understood as it takes to find its comments and
words and to tell which `end` closes what.  `Reader.step?` reads one piece of the text: blanks, a
comment, a word, a piece of punctuation, the end of a line, or an embedded document.
`Reader.finish` says what is left to say where the text ends.
-/

namespace ScopeTags.Source

/-- The characters that separate words within a line. -/
def isGap (c : Char) : Bool :=
  c ∈ [' ', '\t', '\r', '\x0c', '\x0b']

namespace Reader

/-- Read a comment, to the end of its line. -/
def readComment (r : Reader) : Reading :=
  ([.token (Token.comment (String.ofList r.currentLine) r.location)],
    r.hop (r.rest.takeWhile (· ≠ '\n')).length)

/-- Read the end of a line, and with it the bodies of the heredocs announced on the line.  It ends a
    statement where an operand is complete. -/
def readNewline (r : Reader) : Reading :=
  -- Whether an operand is complete was settled on the line that ends here.
  let (last, reports) := skipBodies r.heredocs r.nextLine
  let (ends, next) := { r.moveTo last with heredocs := [] }.closeEndless
  (reports ++ ends, next.markOperator)

/-- Read from the character `c` on, after which `cs` follows. -/
def read (r : Reader) (c : Char) (cs : List Char) : Reading :=
  if c = '\n' then r.readNewline
  else if isGap c then ([], r.hop 1)
  else if c = '\\' ∧ cs.head? = some '\n' then ([], r.moveTo (r.toCursor.hop 1).nextLine)
  else if c = '#' then r.readComment
  else if isWordStart c then r.readWord
  else r.readPunctuation c cs

/-- Read one piece of the text, unless it ends here.  An embedded document and the marker that ends
    the program stand at the start of a line. -/
def step? (r : Reader) : Option Reading :=
  match r.rest with
  | [] => none
  | c :: cs =>
    if r.column = 0 ∧ startsEndMarker (c :: cs) then none
    else if r.column = 0 ∧ startsDocument (c :: cs) then
      let (last, events) := skipDocument r.toCursor
      some (events, r.moveTo last)
    else some (r.read c cs)

/-- What is left to say where the text ends. -/
def finish (r : Reader) : List Event :=
  (r.heredocs.head?.map fun h =>
      .unterminated (.heredoc (String.ofList h.terminator)) r.line).toList
    ++ r.endless.map (fun _ => impliedEnd)
    ++ if r.blocks.isEmpty then [] else [.unclosedBlocks r.blocks.length]

end Reader

end ScopeTags.Source
