import ScopeTags.Source.Cursor
import ScopeTags.Source.Event

/-!
# Literals

The inside of a literal is passed over whole.  A literal can hold code, in an interpolation, and
that code can hold literals again, so the reader keeps a stack of frames, the innermost first, and
stops when the stack is empty.  Where the text ends before that, each frame is reported as
unterminated with the line on which it started.

The stack is assumed to have no limit: literals are passed over however deep they nest.  What
becomes of a reader that does have one is the matter of `ScopeTags.Source.Nesting`.
-/

namespace ScopeTags.Source

/-- A literal, or a part of one, that is being passed over. -/
inductive Frame where
  /-- One character, whatever it is. -/
  | single
  /-- Text up to `close`.  Where there is an `opener`, pairs of it and `close` inside are balanced,
      and `nesting` of them are open. -/
  | body (close : Char) (opener : Option Char) (interpolates : Bool) (nesting line : Nat)
  /-- Code up to a closing brace, with `depth` more braces open. -/
  | interpolation (depth line : Nat)
  /-- A regular expression up to a slash outside of its bracketed classes. -/
  | regex (inClass : Bool) (line : Nat)
deriving DecidableEq, Repr

/-- The double quote, the single quote and the back quote enclose strings. -/
def isQuote (c : Char) : Bool :=
  c = '"' || c = '\x27' || c = '\x60'

namespace Frame

/-- The frame of a string between two quotes `q`: all but the single one allow interpolation. -/
def string (q : Char) (line : Nat) : Frame :=
  body q none (q ≠ '\x27') 0 line

/-- The remark that the frame is still open where the text ends.  A character that is missing
    after a backslash is no fault of its own. -/
def report? : Frame → Option Event
  | single => none
  | body _ _ _ _ line => some (.unterminated .literal line)
  | interpolation _ line => some (.unterminated .interpolation line)
  | regex _ line => some (.unterminated .regex line)

/-- The frames that take the place of the innermost one when `c` is read on `line`, where `next` is
    the character after it. -/
def read (line : Nat) (c : Char) (next : Option Char) : Frame → List Frame
  | single => []
  | body close opener interpolates nesting start =>
    let same := body close opener interpolates nesting start
    -- An escape comes before all else, so that it may hide the closing character.
    if c = '\\' then [single, same]
    else if c = '\n' then [same]
    else if interpolates ∧ c = '#' ∧ next = some '\x7b' then [single, interpolation 0 line, same]
    else if opener = some c then [body close opener interpolates (nesting + 1) start]
    else if c = close then
      match nesting with
      | 0 => []
      | nesting + 1 => [body close opener interpolates nesting start]
    else [same]
  -- Code has no escapes of its own outside of the strings in it.
  | interpolation depth start =>
    if isQuote c then [string c line, interpolation depth start]
    else if c = '\x7b' then [interpolation (depth + 1) start]
    else if c = '\x7d' then
      match depth with
      | 0 => []
      | depth + 1 => [interpolation depth start]
    else [interpolation depth start]
  | regex inClass start =>
    if c = '\\' then [single, regex inClass start]
    else if c = '#' ∧ next = some '\x7b' then [single, interpolation 0 line, regex inClass start]
    else if c = '[' then [regex true start]
    else if c = ']' then [regex false start]
    else if c = '/' ∧ ¬inClass then []
    else [regex inClass start]

end Frame

/-- Pass over text until no frame is open, or to the end of the text.  Any number of frames may be
    open at once. -/
def skipFrames : List Frame → Place → List Char → Cursor × List Event
  | [], p, cs => ({ toPlace := p, rest := cs }, [])
  | frames, p, [] => ({ toPlace := p, rest := [] }, frames.filterMap Frame.report?)
  | frame :: frames, p, c :: cs =>
    skipFrames (frame.read p.line c cs.head? ++ frames) (p.past c) cs

theorem length_rest_skipFrames_le (frames : List Frame) (p : Place) (cs : List Char) :
    (skipFrames frames p cs).1.rest.length ≤ cs.length := by
  induction cs generalizing frames p with
  | nil => cases frames <;> simp [skipFrames]
  | cons c cs ih =>
    cases frames with
    | nil => simp [skipFrames]
    | cons frame frames => exact Nat.le_succ_of_le (ih _ _)

/-- The flags that may follow a regular expression. -/
def isRegexFlag (c : Char) : Bool :=
  c ∈ ['i', 'm', 'x', 'o', 'u', 'n', 's', 'e']

/-- The letters that may follow the percent sign of a literal. -/
def isPercentType (c : Char) : Bool :=
  c ∈ ['q', 'Q', 'w', 'W', 'i', 'I', 'r', 's', 'x']

/-- The percent literals in which nothing is interpolated. -/
def isRawPercentType (c : Char) : Bool :=
  c ∈ ['q', 'w', 'i', 's']

/-- The bracket that closes `c`, if `c` is an opening one. -/
def closing? : Char → Option Char
  | '(' => some ')'
  | '[' => some ']'
  | '\x7b' => some '\x7d'
  | '<' => some '>'
  | _ => none

/-- The frame of a percent literal of type `type` whose delimiter is `delim`. -/
def Frame.percent (type delim : Char) (line : Nat) : Frame :=
  match closing? delim with
  | some close => body close (some delim) (!isRawPercentType type) 0 line
  | none => body delim none (!isRawPercentType type) 0 line

end ScopeTags.Source
