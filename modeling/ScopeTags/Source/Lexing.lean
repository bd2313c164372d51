import ScopeTags.Source.Progress

/-!
# Reading a whole source

`events` is everything that reading a source brings up, in the order of the text.
-/

namespace ScopeTags.Source

namespace Reader

/-- Everything that reading to the end of the text brings up. -/
def events (r : Reader) : List Event :=
  match _h : r.step? with
  | none => r.finish
  | some (found, next) => found ++ next.events
termination_by r.rest.length
decreasing_by exact step?_shorter _h

end Reader

/-- Everything that reading `source` brings up. -/
def events (source : String) : List Event :=
  (Reader.start source.toList).events

end ScopeTags.Source
