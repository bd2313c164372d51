import ScopeTags.Source.Definition
import ScopeTags.Source.Heredoc

/-!
# The state of a reader

A `Reader` is a cursor with what has to be remembered from the text already read: whether an operand
is expected next, how deep in brackets the reader is, which blocks are open, which definitions have
no `end` of their own, and which heredocs are still to come.
-/

namespace ScopeTags.Source

/-- What an `end` can close. -/
inductive Block where
  /-- The body of a module, a class or a method. -/
  | construct
  /-- The body of a conditional, a loop and the like. -/
  | plain
  /-- The body of `class << self`, whose methods are methods of the class. -/
  | singletonClass
deriving DecidableEq, Repr

/-- A cursor with what is remembered of the text already read. -/
structure Reader extends Cursor where
  /-- Whether an operand is expected, as at the start of a statement and after an operator. -/
  valueExpected : Bool := true
  /-- Whether the next word is the name of a method, as after a dot. -/
  afterDot : Bool := false
  /-- Whether the last operand was a bare identifier, which may be a call with arguments to come. -/
  afterIdentifier : Bool := false
  /-- How many brackets are open. -/
  depth : Nat := 0
  /-- The open blocks, the innermost first. -/
  blocks : List Block := []
  /-- The line of a loop header whose `do` may still come. -/
  loopLine : Option Nat := none
  /-- The bracket depth of each endless definition whose body is open, the innermost first. -/
  endless : List Nat := []
  /-- The heredocs whose bodies start after this line. -/
  heredocs : List Heredoc := []
deriving DecidableEq, Repr

/-- What one step of reading brings up, and the reader after it. -/
abbrev Reading := List Event × Reader

namespace Reader

/-- The reader at the start of a text. -/
def start (source : List Char) : Reader := { rest := source }

/-- The reader after `n` more characters of the same line. -/
def hop (r : Reader) (n : Nat) : Reader := { r with toCursor := r.toCursor.hop n }

/-- The reader with its cursor elsewhere. -/
def moveTo (r : Reader) (k : Cursor) : Reader := { r with toCursor := k }

/-- An operand is complete. -/
def markValue (r : Reader) : Reader :=
  { r with valueExpected := false, afterDot := false, afterIdentifier := false }

/-- An operand is expected next. -/
def markOperator (r : Reader) : Reader :=
  { r with valueExpected := true, afterDot := false, afterIdentifier := false }

/-- The name of a method is expected next. -/
def markDot (r : Reader) : Reader :=
  { r with valueExpected := true, afterDot := true }

/-- Open a block. -/
def push (r : Reader) (b : Block) : Reader := { r with blocks := b :: r.blocks }

/-- Whether the innermost enclosing body of a construct is one of `class << self`. -/
def inSingletonClass (r : Reader) : Bool :=
  r.blocks.find? (· ≠ .plain) = some .singletonClass

/-- Whether the character just read is a space or a tab. -/
def afterSpace (r : Reader) : Bool := r.before.head?.any isSpace

/-- The end of an endless definition, which stands nowhere in the text. -/
def impliedEnd : Event := .token (Token.keyword "end" (some .scopeEnd) none {})

/-- Close the endless definitions whose body is complete. -/
def closeEndless (r : Reader) : Reading :=
  if r.valueExpected then ([], r)
  else
    -- Definitions at other bracket depths end elsewhere.
    ((r.endless.takeWhile (· = r.depth)).map fun _ => impliedEnd,
      { r with endless := r.endless.dropWhile (· = r.depth) })

/-- Pass over a literal whose opening has `n` characters and which `frame` describes, with what is
    nested in it to any depth. -/
def skipLiteral (r : Reader) (n : Nat) (frame : Nat → Frame) : Reading :=
  let k := r.toCursor.hop n
  let (last, events) := skipFrames [frame r.line] k.toPlace k.rest
  (events, (r.moveTo last).markValue)

/-- Pass over the flags of a regular expression. -/
def skipFlags (r : Reader) : Reader :=
  r.hop (r.rest.takeWhile isRegexFlag).length

@[simp] theorem rest_hop (r : Reader) (n : Nat) : (r.hop n).rest = r.rest.drop n := rfl

@[simp] theorem rest_moveTo (r : Reader) (k : Cursor) : (r.moveTo k).rest = k.rest := rfl

@[simp] theorem rest_markValue (r : Reader) : r.markValue.rest = r.rest := rfl

@[simp] theorem rest_markOperator (r : Reader) : r.markOperator.rest = r.rest := rfl

@[simp] theorem rest_markDot (r : Reader) : r.markDot.rest = r.rest := rfl

@[simp] theorem rest_push (r : Reader) (b : Block) : (r.push b).rest = r.rest := rfl

@[simp] theorem rest_closeEndless (r : Reader) : r.closeEndless.2.rest = r.rest := by
  rw [closeEndless]
  split <;> rfl

theorem length_rest_skipLiteral_le (r : Reader) (n : Nat) (frame : Nat → Frame) :
    (r.skipLiteral n frame).2.rest.length ≤ r.rest.length - n := by
  have h := length_rest_skipFrames_le [frame r.line] (r.toCursor.hop n).toPlace
    (r.toCursor.hop n).rest
  rw [Cursor.rest_hop, List.length_drop] at h
  exact h

theorem length_rest_skipFlags_le (r : Reader) : r.skipFlags.rest.length ≤ r.rest.length := by
  simp [skipFlags]

end Reader

end ScopeTags.Source
