import ScopeTags.Source.Transcript

/-!
# How deep literals nest

The reader keeps the frames of a literal on a list, which may be of any length.  A reader that
passes over literals by functions that call each other has a call under way for each frame instead,
and no more calls can be under way at once than there is room for.  `nestingDepth` is the room that
a source takes, and `transcribeWithin` the transcript that is made with a limit to it.
-/

namespace ScopeTags.Source

/-- Whether the frame is a literal or code in one.  A single character takes no call of its own. -/
def Frame.nests : Frame → Bool
  | single => false
  | _ => true

/-- How many of the frames are literals or code in them. -/
def openCount (frames : List Frame) : Nat := frames.countP Frame.nests

/-- How many are open at once, at most, while text is passed over. -/
def deepest : List Frame → Place → List Char → Nat
  | [], _, _ => 0
  | frames, _, [] => openCount frames
  | frame :: frames, p, c :: cs =>
    max (openCount (frame :: frames))
      (deepest (frame.read p.line c cs.head? ++ frames) (p.past c) cs)

theorem openCount_append (frames frames' : List Frame) :
    openCount (frames ++ frames') = openCount frames + openCount frames' :=
  List.countP_append

theorem openCount_singleton_le (frame : Frame) (room : Nat) : openCount [frame] ≤ room + 1 :=
  Nat.le_trans List.countP_le_length (Nat.succ_le_succ (Nat.zero_le room))

theorem openCount_cons_of_nests {frame : Frame} (h : frame.nests) (frames : List Frame) :
    openCount (frame :: frames) = openCount frames + 1 :=
  List.countP_cons_of_pos h

/-- What is open at the start is open at once. -/
theorem openCount_le_deepest (frames : List Frame) (p : Place) (cs : List Char) :
    openCount frames ≤ deepest frames p cs := by
  fun_cases deepest frames p cs with
  | case1 => exact Nat.le_refl 0
  | case2 => exact Nat.le_refl _
  | case3 => exact Nat.le_max_left _ _

namespace Reader

/-- How deep a literal nests whose opening has `n` characters. -/
def literalDepth (r : Reader) (n : Nat) (frame : Nat → Frame) : Nat :=
  deepest [frame r.line] (r.toCursor.hop n).toPlace (r.toCursor.hop n).rest

/-- How deep the literal nests that `c` opens, after which `cs` follows.  All else that `c` starts
    takes no call of that kind. -/
def depthAt (r : Reader) (c : Char) (cs : List Char) : Nat :=
  if isQuote c then r.literalDepth 1 (Frame.string c)
  else if c = ':' then
    match cs.head? with
    | some d => if d = '"' ∨ d = '\x27' then r.literalDepth 2 (Frame.string d) else 0
    | none => 0
  else if c = '%' then
    match percentOpening? cs with
    | some (type, delim, n) =>
      if r.operandMayStart cs.head? then r.literalDepth n (Frame.percent type delim) else 0
    | none => 0
  else if c = '/' then
    if r.operandMayStart cs.head? then r.literalDepth 1 (Frame.regex false) else 0
  else 0

theorem depthAt_eq_zero {r : Reader} {c : Char} (hquote : ¬isQuote c) (hcolon : c ≠ ':')
    (hpercent : c ≠ '%') (hslash : c ≠ '/') (cs : List Char) : r.depthAt c cs = 0 := by
  rw [depthAt, if_neg hquote, if_neg hcolon, if_neg hpercent, if_neg hslash]

/-- No character opens a literal of a class that has none of the characters that may. -/
theorem depthAt_of_class {r : Reader} {c : Char} {p : Char → Bool} (h : p c)
    (hp : ['"', '\x27', '\x60', ':', '%', '/'].any p = false) (cs : List Char) :
    r.depthAt c cs = 0 := by
  have hc : c ∉ ['"', '\x27', '\x60', ':', '%', '/'] := fun hmem =>
    List.any_eq_false.mp hp c hmem h
  simp only [List.mem_cons, List.not_mem_nil, or_false, not_or] at hc
  obtain ⟨hdouble, hsingle, hback, hcolon, hpercent, hslash⟩ := hc
  exact depthAt_eq_zero (by simp [isQuote, hdouble, hsingle, hback]) hcolon hpercent hslash cs

/-- How deep the piece of the text nests that is read next. -/
def stepDepth (r : Reader) : Nat :=
  match r.rest with
  | [] => 0
  | c :: cs => r.depthAt c cs

/-- How deep the text nests from here on. -/
def nestingDepth (r : Reader) : Nat :=
  match _h : r.step? with
  | none => 0
  | some (_, next) => max r.stepDepth next.nestingDepth
termination_by r.rest.length
decreasing_by exact step?_shorter _h

theorem nestingDepth_of_none {r : Reader} (h : r.step? = none) : r.nestingDepth = 0 := by
  rw [nestingDepth]
  split
  · rfl
  · next hstep => cases h.symm.trans hstep

theorem nestingDepth_of_step? {r next : Reader} {found : List Event}
    (h : r.step? = some (found, next)) :
    r.nestingDepth = max r.stepDepth next.nestingDepth := by
  rw [nestingDepth]
  split
  · next hstep => cases h.symm.trans hstep
  · next hstep =>
    cases h.symm.trans hstep
    rfl

end Reader

/-- How deep the literals of a source nest. -/
def nestingDepth (source : String) : Nat :=
  (Reader.start source.toList).nestingDepth

/-- The transcript of a source in a file, unless its literals nest deeper than `limit`. -/
def transcribeWithin (limit : Nat) (strict : Bool) (file : Option String) (source : String) :
    Option Transcript :=
  if nestingDepth source ≤ limit then some (transcribe strict file source) else none

end ScopeTags.Source
