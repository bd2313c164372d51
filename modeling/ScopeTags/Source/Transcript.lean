import ScopeTags.Notice
import ScopeTags.Source.Lexing

/-!
# Transcripts

A transcript of a source lists its tokens.  A lenient reading goes through the whole text and
leaves a notice of everything that is wrong with it; a strict one stops at the first construct
that is still open where the text ends, which is its fault.
-/

namespace ScopeTags.Source

namespace Event

/-- The fault for which a strict reading stops at the event. -/
def fault? (strict : Bool) (file : Option String) : Event → Option Fault
  | unterminated what line =>
    if strict then
      some (.lexical ("Unterminated " ++ what.label) { line := some (line : Int), file })
    else none
  | _ => none

/-- The notice that the event leaves. -/
def notice? (file : Option String) : Event → Option Notice
  | token _ => none
  | unterminated what line => some (.unterminated file line what)
  | strayEnd line => some (.strayEnd file line)
  | unclosedBlocks count => some (.unclosedBlocks file count)

end Event

/-- The tokens of a source, the notices left on reading it, and the fault that ended the reading. -/
structure Transcript where
  tokens : List Token
  notices : List Notice
  fault : Option Fault
deriving DecidableEq, Repr

/-- What reading a source in a file brings up. -/
def eventsIn (file : Option String) (source : String) : List Event :=
  (events source).map (Event.inFile file)

/-- The transcript of a source in a file. -/
def transcribe (strict : Bool) (file : Option String) (source : String) : Transcript :=
  let found := eventsIn file source
  let heeded := found.takeWhile fun event => (event.fault? strict file).isNone
  { tokens := heeded.filterMap Event.token?
    notices := heeded.filterMap (Event.notice? file)
    fault := found.findSome? (Event.fault? strict file) }

end ScopeTags.Source
