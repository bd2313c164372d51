import ScopeTags.Proofs.Scanner
import ScopeTags.Proofs.ReadingEffect

/-!
# What the steps of a scanner come to

A scanner is compared with the reader at the same place of the text, its `view`.  `Performs` says
that steps of the scanner come to what the reader reads: they have an outcome, which is no fault but
that of a strict reading, and they leave the scanner at a sound position.

## Key results

- `Performs.bind`: steps one after the other
- `consumeLine_performs`, `skipLines_performs`, `skipEachBody_performs`: reading by lines
- `scanNewline_performs`, `skipEmbeddedDocument_performs`: the end of a line, an embedded document
-/

namespace ScopeTags.Source

/-- What steps of a scanner come to. -/
abbrev Outcome (α : Type) := Option (Except Stop α × Scanner)

/-- What further steps come to, after steps that came to `x`. -/
def Outcome.andThen {α β : Type} (x : Outcome α) (k : α → Scanning β) : Outcome β :=
  match x with
  | some (.ok a, s) => k a s
  | some (.error stop, s) => some (.error stop, s)
  | none => none

namespace Scanning

variable {α β : Type} {s : Scanner}

@[simp] theorem andThen_ok (a : α) (s : Scanner) (k : α → Scanning β) :
    Outcome.andThen (some (.ok a, s)) k = k a s := rfl

/-- Steps one after the other, run one after the other. -/
@[simp] theorem bind_run (m : Scanning α) (k : α → Scanning β) (s : Scanner) :
    (m >>= k) s = Outcome.andThen (m s) k := by
  show Option.bind (m s) _ = _
  cases m s with
  | none => rfl
  | some x => obtain ⟨fault | a, s'⟩ := x <;> rfl

/-- It makes no difference where a sequence of steps is cut in two. -/
theorem andThen_assoc {γ : Type} (x : Outcome α) (k : α → Scanning β) (k' : β → Scanning γ) :
    (x.andThen k).andThen k' = x.andThen fun a => k a >>= k' := by
  cases x with
  | none => rfl
  | some x =>
    obtain ⟨fault | a, s⟩ := x
    · rfl
    · exact (bind_run (k a) k' s).symm

@[simp] theorem pure_run (a : α) (s : Scanner) : (pure a : Scanning α) s = some (.ok a, s) := rfl

@[simp] theorem get_run (s : Scanner) : (get : Scanning Scanner) s = some (.ok s, s) := rfl

@[simp] theorem modify_run (f : Scanner → Scanner) (s : Scanner) :
    (modify f : Scanning PUnit) s = some (.ok ⟨⟩, f s) := rfl

@[simp] theorem throw_run (stop : Stop) (s : Scanner) :
    (throw stop : Scanning α) s = some (.error stop, s) := rfl

@[simp] theorem ite_run (c : Prop) [Decidable c] (m n : Scanning α) (s : Scanner) :
    (if c then m else n) s = if c then m s else n s := by
  split <;> rfl

/-- A loop has a round for each character of the text, and one more. -/
@[simp] theorem loop_run (rounds : Nat → Scanning α) (s : Scanner) :
    loop rounds s = rounds (s.source.length + 1) s := rfl

@[simp] theorem goTo_run (i : Nat) (s : Scanner) :
    goTo i s = some (.ok (), { s with pos := i }) := rfl

@[simp] theorem emit_run (event : Event) (s : Scanner) :
    emit event s = some (.ok (), { s with emitted := s.emitted ++ [event] }) := rfl

@[simp] theorem markValue_run (s : Scanner) :
    markValue s = some (.ok (),
      { s with valueExpected := false, afterDot := false, afterIdentifier := false }) := rfl

@[simp] theorem markOperator_run (s : Scanner) :
    markOperator s = some (.ok (),
      { s with valueExpected := true, afterDot := false, afterIdentifier := false }) := rfl

@[simp] theorem push_run (block : Block) (s : Scanner) :
    push block s = some (.ok (), { s with blocks := block :: s.blocks }) := rfl

/-- An index inside a list is no fault. -/
theorem item_run {xs : List α} {i : Nat} {x : α} (h : xs[i]? = some x) (s : Scanner) :
    item xs i s = some (.ok x, s) := by
  rw [item, h]
  rfl

/-- A position inside the text is no fault. -/
theorem charAt_run {i : Nat} {c : Char} (h : s.source[i]? = some c) :
    charAt i s = some (.ok c, s) := by
  rw [charAt, bind_run, get_run, andThen_ok, item_run h]

/-- The same with a bound on the rounds, as long as it exceeds what is left of the text. -/
private theorem scanWhileFor_run (p : Char → Bool) {fuel i : Nat}
    (hfuel : s.source.length - i < fuel) :
    scanWhileFor p fuel i s = some (.ok (i + ((s.source.drop i).takeWhile p).length), s) := by
  -- By induction on the rounds.  Each one moves `i` one character on.
  induction fuel generalizing i with
  | zero => omega
  | succ fuel ih =>
    rw [scanWhileFor, bind_run, get_run, andThen_ok, ite_run]
    by_cases hi : i < s.source.length
    · rw [if_pos hi, bind_run, charAt_run (List.getElem?_eq_getElem hi), andThen_ok, ite_run,
        List.drop_eq_getElem_cons hi, List.takeWhile_cons]
      split
      · rw [ih (by omega), List.length_cons]
        congr 3
        omega
      · simp
    · rw [if_neg hi, List.drop_eq_nil_of_le (Nat.le_of_not_lt hi)]
      rfl

/-- A loop over characters of one class ends where the class does. -/
theorem scanWhile_run (p : Char → Bool) (i : Nat) (s : Scanner) :
    scanWhile p i s = some (.ok (i + ((s.source.drop i).takeWhile p).length), s) :=
  scanWhileFor_run p (Nat.lt_succ_of_le (Nat.sub_le _ _))

end Scanning

namespace Scanner

variable {s s' : Scanner} {i j : Nat} {c : Char}

/-! ## The reader at the same place -/

/-- The cursor at `i`, which stands on the current line. -/
def cursorAt (s : Scanner) (i : Nat) : Cursor where
  before := (s.source.take i).reverse
  line := s.line
  column := min i s.source.length - s.lineStart
  rest := s.source.drop i

/-- The reader that stands where the scanner does and remembers the same. -/
def view (s : Scanner) : Reader where
  toCursor := s.cursorAt s.pos
  valueExpected := s.valueExpected
  afterDot := s.afterDot
  afterIdentifier := s.afterIdentifier
  depth := s.depth
  blocks := s.blocks
  loopLine := s.loopLine
  endless := s.endless
  heredocs := s.heredocs

@[simp] theorem rest_cursorAt (s : Scanner) (i : Nat) : (s.cursorAt i).rest = s.source.drop i := rfl

@[simp] theorem rest_view (s : Scanner) : s.view.rest = s.source.drop s.pos := rfl

/-- In a text of that length a line starts at `lineStart`, and `i` is on the line or further on, but
    at most one past the end of the text. -/
structure Bounds (length lineStart i : Nat) : Prop where
  lineStart_le : lineStart ≤ i
  lineStart_le_length : lineStart ≤ length
  le_length : i ≤ length + 1

/-- The place `i` is sound while the current line lasts. -/
def SoundAt (s : Scanner) (i : Nat) : Prop := Bounds s.source.length s.lineStart i

/-- The position is sound. -/
def Sound (s : Scanner) : Prop := s.SoundAt s.pos

/-- A place further on is sound as well, up to one past the end. -/
theorem SoundAt.of_le (h : s.SoundAt i) (hij : i ≤ j) (hj : j ≤ s.source.length + 1) :
    s.SoundAt j :=
  ⟨Nat.le_trans h.lineStart_le hij, h.lineStart_le_length, hj⟩

/-- The end of a run of characters is a sound position. -/
theorem SoundAt.takeWhile (h : s.SoundAt i) (p : Char → Bool) :
    s.SoundAt (i + ((s.source.drop i).takeWhile p).length) := by
  have hle := (List.takeWhile_prefix (p := p) (l := s.source.drop i)).length_le
  rw [List.length_drop] at hle
  have := h.le_length
  exact h.of_le (Nat.le_add_right _ _) (by omega)

/-- The cursor so many characters further on, where the line is taken to go on. -/
theorem cursorAt_add (h : s.SoundAt i) (n : Nat) :
    s.cursorAt (i + n) = (s.cursorAt i).hop n := by
  have := h.lineStart_le
  have := h.lineStart_le_length
  simp only [cursorAt, Cursor.hop, Place.along, Cursor.mk.injEq, Place.mk.injEq, List.drop_drop,
    List.length_take, List.length_drop, and_true, true_and]
  refine ⟨?_, by omega⟩
  rw [List.take_add, List.reverse_append]

/-- Past a character that ends no line. -/
theorem cursorAt_succ (h : s.SoundAt i) (hc : s.source[i]? = some c) (hne : c ≠ '\n') :
    (s.cursorAt (i + 1)).toPlace = (s.cursorAt i).past c := by
  obtain ⟨hi, rfl⟩ := List.getElem?_eq_some_iff.mp hc
  have := h.lineStart_le
  simp only [cursorAt, Place.past, if_neg hne, Place.mk.injEq, true_and]
  refine ⟨?_, by omega⟩
  rw [List.take_succ_eq_append_getElem hi, List.reverse_append]
  rfl

/-- Past a newline that ends a line. -/
theorem cursorAt_newline (hc : s.source[i]? = some '\n') :
    ({ s with line := s.line + 1, lineStart := i + 1 }.cursorAt (i + 1)).toPlace
      = (s.cursorAt i).past '\n' := by
  obtain ⟨hi, hc⟩ := List.getElem?_eq_some_iff.mp hc
  simp only [cursorAt, Place.past, if_true, Place.mk.injEq, true_and]
  refine ⟨?_, by omega⟩
  rw [List.take_succ_eq_append_getElem hi, List.reverse_append, hc]
  rfl

/-- What is left of the text starts with the character at the place. -/
theorem drop_eq_cons (hc : s.source[i]? = some c) :
    s.source.drop i = c :: s.source.drop (i + 1) := by
  obtain ⟨hi, rfl⟩ := List.getElem?_eq_some_iff.mp hc
  exact List.drop_eq_getElem_cons hi

/-- The reader that has gone on to `i`. -/
theorem view_goTo (h : s.Sound) (n : Nat) : { s with pos := s.pos + n }.view = s.view.hop n := by
  have hcursor := cursorAt_add h n
  simp only [view, Reader.hop, ← hcursor]
  rfl

/-- The location of a place is that of the cursor there, in the file of the scanner. -/
theorem locationOf_eq (h : s.SoundAt i) (hi : i ≤ s.source.length) :
    s.locationOf i = { (s.cursorAt i).location with file := s.file } := by
  have := h.lineStart_le
  simp only [locationOf, Place.location, cursorAt, Location.mk.injEq, and_true, true_and]
  omega

/-! ## Steps that do what the reader does -/

/-- The fault for which the scanner stops at one of the events. -/
def fault? (s : Scanner) (events : List Event) : Option Fault :=
  events.findSome? (Event.fault? s.strict s.file)

/-- The events before the one for which the scanner stops. -/
def heeded (s : Scanner) (events : List Event) : List Event :=
  events.takeWhile fun event => (event.fault? s.strict s.file).isNone

/-- The first fault is that of the earlier events, if there is one. -/
theorem fault?_append (s : Scanner) (events events' : List Event) :
    s.fault? (events ++ events') = (s.fault? events).or (s.fault? events') :=
  List.findSome?_append

/-- Events without a fault are all heeded. -/
theorem heeded_append_of_quiet {events : List Event} (h : s.fault? events = none)
    (events' : List Event) : s.heeded (events ++ events') = events ++ s.heeded events' := by
  refine List.takeWhile_append_of_pos fun event hevent => ?_
  rw [List.findSome?_eq_none_iff.mp h event hevent]
  rfl

/-- After a fault nothing is. -/
theorem heeded_append_of_fault {events : List Event} {fault : Fault}
    (h : s.fault? events = some fault) (events' : List Event) :
    s.heeded (events ++ events') = s.heeded events := by
  induction events with
  | nil => cases h
  | cons event events ih =>
    simp only [heeded, fault?, List.findSome?_cons, List.cons_append, List.takeWhile_cons] at h ih ⊢
    split at h
    · next hfault => simp [hfault]
    · next hfault => simp [hfault, ih h]

/-- The scanner reads the same text as before and has brought up `events` since. -/
structure Follows (s : Scanner) (events : List Event) (s' : Scanner) : Prop where
  source : s'.source = s.source
  limit : s'.limit = s.limit
  strict : s'.strict = s.strict
  file : s'.file = s.file
  emitted : s'.emitted = s.emitted ++ events.map (Event.inFile s.file)

/-- What comes up in two stretches comes up in the order of the stretches. -/
theorem Follows.trans {s s' s'' : Scanner} {events events' : List Event}
    (h : s.Follows events s') (h' : s'.Follows events' s'') :
    s.Follows (events ++ events') s'' where
  source := h'.source.trans h.source
  limit := h'.limit.trans h.limit
  strict := h'.strict.trans h.strict
  file := h'.file.trans h.file
  emitted := by rw [h'.emitted, h.emitted, h.file, List.map_append, List.append_assoc]

/-- What is a fault does not change on the way. -/
theorem Follows.fault?_eq {events : List Event} (h : s.Follows events s')
    (events' : List Event) : s'.fault? events' = s.fault? events' := by
  rw [fault?, fault?, h.strict, h.file]

/-- The same events are heeded after steps as before them. -/
theorem Follows.heeded_eq {events : List Event} (h : s.Follows events s')
    (events' : List Event) : s'.heeded events' = s.heeded events' := by
  rw [heeded, heeded, h.strict, h.file]

end Scanner

/-- The outcome `x` of steps from `s` on is what `reading` says: the value is `a` and the scanner
    stands where the reader does, or an event is the fault of a strict reading, which comes at the
    end of the text.  The position is sound. -/
inductive Performs {α : Type} (s : Scanner) (reading : Reading) (a : α) : Outcome α → Prop
  | done {s' : Scanner} (quiet : s.fault? reading.1 = none) (follows : s.Follows reading.1 s')
      (sound : s'.Sound) (view : s'.view = reading.2) : Performs s reading a (some (.ok a, s'))
  | failed {s' : Scanner} {fault : Fault} (fault_eq : s.fault? reading.1 = some fault)
      (follows : s.Follows (s.heeded reading.1) s') (sound : s'.Sound)
      (atEnd : s'.source.length ≤ s'.pos) : Performs s reading a (some (.error (.fault fault), s'))

namespace Performs

variable {α β : Type} {s s' : Scanner} {reading : Reading} {a : α}

/-- Steps that come after events that are no fault. -/
theorem prepend {events : List Event} {x : Outcome α} (quiet : s.fault? events = none)
    (follows : s.Follows events s') (h : Performs s' reading a x) :
    Performs s (events ++ reading.1, reading.2) a x := by
  have hfault : s.fault? (events ++ reading.1) = s'.fault? reading.1 := by
    rw [Scanner.fault?_append, quiet, Option.none_or, follows.fault?_eq]
  have hheeded : s.heeded (events ++ reading.1) = events ++ s'.heeded reading.1 := by
    rw [Scanner.heeded_append_of_quiet quiet, follows.heeded_eq]
  cases h with
  | done quiet' follows' sound view =>
    exact .done (hfault.trans quiet') (follows.trans follows') sound view
  | failed fault_eq follows' sound atEnd =>
    refine .failed (hfault.trans fault_eq) ?_ sound atEnd
    show s.Follows (s.heeded (events ++ reading.1)) _
    rw [hheeded]
    exact follows.trans follows'

section Bind

variable {events events' : List Event} {r r' : Reader} {b : β} {x : Outcome α}
  {k : α → Scanning β}

/-- Steps one after the other do what the reader does one after the other. -/
theorem bind (h : Performs s (events, r) a x)
    (hk : ∀ s', s.Follows events s' → s'.Sound → s'.view = r →
      Performs s' (events', r') b (k a s')) :
    Performs s (events ++ events', r') b (x.andThen k) := by
  cases h with
  | done quiet follows sound view => exact prepend quiet follows (hk _ follows sound view)
  -- The first steps have failed, so the others are not made and their events do not count.
  | failed fault_eq follows sound atEnd =>
    refine .failed ?_ ?_ sound atEnd
    · rw [Scanner.fault?_append, fault_eq, Option.some_or]
    · rw [Scanner.heeded_append_of_fault fault_eq]
      exact follows

/-- Steps one after the other, where the first ones say nothing. -/
private theorem bind_silent (h : Performs s ([], r) a x)
    (hk : ∀ s', s.Follows [] s' → s'.Sound → s'.view = r → Performs s' (events', r') b (k a s')) :
    Performs s (events', r') b (x.andThen k) :=
  bind h hk

/-- Steps one after the other, where the last ones say nothing. -/
theorem bind_last (h : Performs s (events, r) a x)
    (hk : ∀ s', s.Follows events s' → s'.Sound → s'.view = r → Performs s' ([], r') b (k a s')) :
    Performs s (events, r') b (x.andThen k) := by
  have hbind := bind h hk
  rwa [List.append_nil] at hbind

end Bind

/-- Steps that come after some that say nothing. -/
theorem after {x : Outcome α} (follows : s.Follows [] s') (h : Performs s' reading a x) :
    Performs s reading a x :=
  prepend rfl follows h

end Performs

/-! ## Room for calls -/

/-- Steps that take `depth` calls at once where there is room for `room` of them.  If that is
    enough, their outcome is as `P` says.  Otherwise they stop, at a sound position of the text. -/
inductive Within {α : Type} (s : Scanner) (room depth : Nat) (P : Outcome α → Prop) :
    Outcome α → Prop
  | fits {x : Outcome α} (le : depth ≤ room) (holds : P x) : Within s room depth P x
  | tooDeep {s' : Scanner} (lt : room < depth) (source : s'.source = s.source)
      (limit : s'.limit = s.limit) (sound : s'.Sound) :
      Within s room depth P (some (.error .tooDeep, s'))

namespace Within

variable {α β : Type} {s s' : Scanner} {room depth depth' : Nat} {events : List Event}
  {P P' : Outcome α → Prop} {Q : Outcome β → Prop} {x : Outcome α} {k : α → Scanning β}

/-- Steps that come after some that made no calls. -/
theorem prepend (follows : s.Follows events s') (hP : P x → P' x)
    (h : Within s' room depth P x) : Within s room depth P' x := by
  cases h with
  | fits le holds => exact .fits le (hP holds)
  | tooDeep lt source limit sound =>
    exact .tooDeep lt (source.trans follows.source) (limit.trans follows.limit) sound

/-- Steps that come after some that say nothing. -/
theorem after {reading : Reading} {a : α} (follows : s.Follows [] s')
    (h : Within s' room depth (Performs s' reading a) x) :
    Within s room depth (Performs s reading a) x :=
  h.prepend follows (.after follows)

/-- A call around the steps takes room, and leaves less. -/
theorem succ (h : Within s room depth P x) : Within s (room + 1) (depth + 1) P x := by
  cases h with
  | fits le holds => exact .fits (Nat.succ_le_succ le) holds
  | tooDeep lt source limit sound => exact .tooDeep (Nat.succ_lt_succ lt) source limit sound

/-- What is open already takes no more room. -/
theorem max_left {count : Nat} (h : Within s room depth P x)
    (hcount : count ≤ room ∨ count ≤ depth) : Within s room (max count depth) P x := by
  cases h with
  | fits le holds => exact .fits (by omega) holds
  | tooDeep lt source limit sound => exact .tooDeep (by omega) source limit sound

/-- Steps one after the other take as much room as the deeper of them. -/
theorem bind (h : Within s room depth P x) (hk : P x → Within s room depth' Q (x.andThen k)) :
    Within s room (max depth depth') Q (x.andThen k) := by
  cases h with
  | tooDeep lt source limit sound =>
    exact .tooDeep (Nat.lt_of_lt_of_le lt (Nat.le_max_left _ _)) source limit sound
  | fits le holds =>
    -- The first steps fit.  Whether all do is up to the others.
    generalize x.andThen k = y at hk
    cases hk holds with
    | fits le' holds' => exact .fits (Nat.max_le.mpr ⟨le, le'⟩) holds'
    | tooDeep lt source limit sound =>
      exact .tooDeep (Nat.lt_of_lt_of_le lt (Nat.le_max_right _ _)) source limit sound

/-- Steps one after the other, of which the last ones make no calls. -/
theorem bind_last (h : Within s room depth P x) (hk : P x → Q (x.andThen k)) :
    Within s room depth Q (x.andThen k) := by
  cases h with
  | fits le holds => exact .fits le (hk holds)
  | tooDeep lt source limit sound => exact .tooDeep lt source limit sound

end Within

/-- Steps that do what the reader does, if there is room for `depth` calls. -/
abbrev PerformsAt {α : Type} (s : Scanner) (depth : Nat) (reading : Reading) (a : α) :
    Outcome α → Prop :=
  Within s s.limit depth (Performs s reading a)

/-- Steps that make no calls. -/
theorem Performs.within {α : Type} {s : Scanner} {reading : Reading} {a : α} {x : Outcome α}
    {depth : Nat} (h : Performs s reading a x) (hdepth : depth = 0) :
    PerformsAt s depth reading a x :=
  .fits (hdepth ▸ Nat.zero_le _) h

namespace Reader

variable {r : Reader}

/-- Nothing is closed where the innermost endless definition is not complete. -/
private theorem closeEndless_eq_self
    (h : ∀ depth ∈ r.endless.head?, ¬(depth = r.depth ∧ ¬r.valueExpected)) :
    r.closeEndless = ([], r) := by
  rw [closeEndless]
  split
  · rfl
  · next hvalue =>
    have hnone : r.endless.takeWhile (· = r.depth) = [] ∧
        r.endless.dropWhile (· = r.depth) = r.endless := by
      cases hendless : r.endless with
      | nil => exact ⟨rfl, rfl⟩
      | cons depth endless =>
        have hdepth : depth ≠ r.depth := fun heq =>
          h depth (by rw [hendless]; rfl) ⟨heq, hvalue⟩
        simp [hdepth]
    rw [hnone.1, hnone.2]
    rfl

/-- Where it is complete, it is closed and those around it are looked at. -/
private theorem closeEndless_cons {endless : List Nat} (h : r.endless = r.depth :: endless)
    (hvalue : ¬r.valueExpected) :
    r.closeEndless = ([impliedEnd] ++ { r with endless }.closeEndless.1,
      { r with endless }.closeEndless.2) := by
  have hopen : ¬({ r with endless } : Reader).valueExpected := hvalue
  rw [closeEndless, closeEndless, if_neg hvalue, if_neg hopen, h]
  simp

end Reader

namespace Scanner

variable {s s' : Scanner} {i j : Nat} {c : Char}

/-- A scanner that has brought up nothing. -/
theorem follows_nil (hsource : s'.source = s.source) (hlimit : s'.limit = s.limit)
    (hstrict : s'.strict = s.strict) (hfile : s'.file = s.file)
    (hemitted : s'.emitted = s.emitted) : s.Follows [] s' :=
  ⟨hsource, hlimit, hstrict, hfile, by rw [hemitted]; simp⟩

/-! ## Lines -/

/-- Where a character is not found, what is left of the text is all without it. -/
theorem find?_eq_none (h : s.find? c i = none) :
    (s.source.drop i).takeWhile (· ≠ c) = s.source.drop i ∧
      (s.source.drop i).dropWhile (· ≠ c) = [] := by
  have hlength := List.findIdx?_eq_none_iff_findIdx_eq.mp (Option.map_eq_none_iff.mp h)
  rw [List.takeWhile_eq_take_findIdx_not, List.dropWhile_eq_drop_findIdx_not]
  simp only [ne_eq, decide_not, Bool.not_not, hlength]
  exact ⟨List.take_length, List.drop_length⟩

/-- Where it is found, the text splits there. -/
theorem find?_eq_some (h : s.find? c i = some j) :
    i ≤ j ∧ s.source[j]? = some c ∧ (s.source.drop i).takeWhile (· ≠ c) = s.slice i j ∧
      (s.source.drop i).dropWhile (· ≠ c) = s.source.drop j := by
  obtain ⟨n, hn, rfl⟩ := Option.map_eq_some_iff.mp h
  obtain ⟨hlt, hc, -⟩ := List.findIdx?_eq_some_iff_getElem.mp hn
  obtain ⟨-, hidx⟩ := List.findIdx?_eq_some_iff_findIdx_eq.mp hn
  refine ⟨Nat.le_add_right i n, ?_, ?_, ?_⟩
  · rw [← List.getElem?_drop, List.getElem?_eq_getElem hlt, of_decide_eq_true hc]
  · rw [List.takeWhile_eq_take_findIdx_not, slice]
    simp only [ne_eq, decide_not, Bool.not_not, hidx, Nat.add_sub_cancel_left]
  · rw [List.dropWhile_eq_drop_findIdx_not]
    simp only [ne_eq, decide_not, Bool.not_not, hidx, List.drop_drop]

/-- In either case the run of other characters ends there. -/
private theorem find?_getD (hi : i ≤ s.source.length) :
    (s.find? c i).getD s.source.length
      = i + ((s.source.drop i).takeWhile (· ≠ c)).length := by
  cases hfind : s.find? c i with
  | none =>
    rw [(find?_eq_none hfind).1, Option.getD_none, List.length_drop]
    omega
  | some j =>
    obtain ⟨hle, hc, htake, -⟩ := find?_eq_some hfind
    have hlt : j < s.source.length := (List.getElem?_eq_some_iff.mp hc).1
    rw [htake, Option.getD_some, slice, List.length_take, List.length_drop]
    omega

/-- A piece of the text by its start and its length. -/
theorem slice_add (s : Scanner) (i n : Nat) : s.slice i (i + n) = (s.source.drop i).take n := by
  rw [slice, Nat.add_sub_cancel_left]

/-- The piece that a run of characters makes up. -/
theorem slice_takeWhile (s : Scanner) (p : Char → Bool) (i : Nat) :
    s.slice i (i + ((s.source.drop i).takeWhile p).length) = (s.source.drop i).takeWhile p := by
  rw [slice_add]
  exact (List.prefix_iff_eq_take.mp (List.takeWhile_prefix p)).symm

/-- The last line of the text goes to its end. -/
private theorem nextLine_of_find?_eq_none (h : s.SoundAt i) (hi : i ≤ s.source.length)
    (hfind : s.find? '\n' i = none) : (s.cursorAt i).nextLine = s.cursorAt s.source.length := by
  obtain ⟨htake, hdrop⟩ := find?_eq_none hfind
  have hhop := cursorAt_add h (s.source.length - i)
  rw [Nat.add_sub_cancel' hi] at hhop
  have hall : (s.source.drop i).take (s.source.length - i) = s.source.drop i :=
    List.take_of_length_le (by simp)
  rw [hhop]
  simp only [Cursor.nextLine, Cursor.hop, rest_cursorAt, htake, hdrop, hall, List.drop_drop,
    Nat.add_sub_cancel' hi, List.drop_length]

/-- Any other line goes to just past its newline. -/
theorem nextLine_of_find?_eq_some (h : s.SoundAt i) (hfind : s.find? '\n' i = some j) :
    (s.cursorAt i).nextLine
      = { s with line := s.line + 1, lineStart := j + 1 }.cursorAt (j + 1) := by
  obtain ⟨hle, hc, htake, hdrop⟩ := find?_eq_some hfind
  have hhop := cursorAt_add h (j - i)
  rw [Nat.add_sub_cancel' hle] at hhop
  have hplace := cursorAt_newline hc
  rw [hhop] at hplace
  simp only [Cursor.nextLine, rest_cursorAt, htake, hdrop, drop_eq_cons hc]
  rw [Cursor.mk.injEq]
  exact ⟨hplace.symm, rfl⟩

end Scanner

namespace Scanning

variable {s : Scanner}

/-- Where the text ends, a construct that is still open is reported or is the fault. -/
theorem unterminated_performs (h : s.Sound) (hend : s.source.length ≤ s.pos) (what : Unterminated)
    (line : Nat) :
    Performs s ([.unterminated what line], s.view) () (unterminated what line s) := by
  simp only [unterminated, bind_run, get_run, andThen_ok, ite_run, throw_run, emit_run]
  split
  · next hstrict =>
    -- A strict reading stops here with a fault, and any other goes on.
    refine .failed ?_ ⟨rfl, rfl, rfl, rfl, ?_⟩ h hend
    · simp [Scanner.fault?, Event.fault?, hstrict]
    · simp [Scanner.heeded, Event.fault?, hstrict]
  · next hstrict =>
    refine .done ?_ ⟨rfl, rfl, rfl, rfl, rfl⟩ h rfl
    simp [Scanner.fault?, Event.fault?, hstrict]

/-- A line is read to its end. -/
theorem consumeLine_performs (h : s.Sound) (hpos : s.pos ≤ s.source.length) :
    Performs s ([], s.view.moveTo s.view.nextLine) s.view.currentLine (consumeLine s) := by
  have hline : s.view.currentLine
      = Text.trimEnd (· = '\r') ((s.source.drop s.pos).takeWhile (· ≠ '\n')) := rfl
  rw [hline]
  simp only [consumeLine, bind_run, get_run, andThen_ok]
  -- The last line has no newline; any other is read together with its own.
  cases hfind : s.find? '\n' s.pos with
  | none =>
    simp only [bind_run, goTo_run, andThen_ok, pure_run]
    rw [(Scanner.find?_eq_none hfind).1,
      show s.view.nextLine = _ from Scanner.nextLine_of_find?_eq_none h hpos hfind]
    exact .done rfl (Scanner.follows_nil rfl rfl rfl rfl rfl) (h.of_le hpos (Nat.le_succ _)) rfl
  | some last =>
    obtain ⟨hle, hc, htake, -⟩ := Scanner.find?_eq_some hfind
    have hlt : last < s.source.length := (List.getElem?_eq_some_iff.mp hc).1
    simp only [bind_run, goTo_run, andThen_ok, pure_run, beginLine, modify_run]
    rw [htake, show s.view.nextLine = _ from Scanner.nextLine_of_find?_eq_some h hfind]
    exact .done rfl (Scanner.follows_nil rfl rfl rfl rfl rfl)
      ⟨Nat.le_refl _, hlt, Nat.le_succ_of_le hlt⟩ rfl

/-- Reading lines up to one of a kind, with a bound on the rounds. -/
private theorem skipLinesFor_performs {ends : List Char → Scanning Bool} {p : List Char → Bool}
    (hends : ∀ line s, ends line s = some (.ok (p line), s)) (what : Unterminated) (line : Nat)
    {fuel : Nat} (h : s.Sound) (hfuel : s.source.length - s.pos < fuel) :
    Performs s (if (s.view.linesThrough p).1 then [] else [.unterminated what line],
      s.view.moveTo (s.view.linesThrough p).2) () (skipLinesFor ends what line fuel s) := by
  -- By induction on the rounds, one for each line.
  induction fuel generalizing s with
  | zero => omega
  | succ fuel ih =>
    rw [skipLinesFor, bind_run, get_run, andThen_ok, ite_run]
    rcases Nat.lt_or_ge s.pos s.source.length with hlt | hge
    · have hrest : s.view.rest ≠ [] := by simp [hlt]
      rw [if_pos hlt, bind_run, Cursor.linesThrough, dif_neg hrest]
      refine (consumeLine_performs h (Nat.le_of_lt hlt)).bind_silent fun s' _ sound hview => ?_
      rw [bind_run, hends, andThen_ok, ite_run]
      split
      · rw [if_pos rfl, ← hview]
        exact .done rfl (Scanner.follows_nil rfl rfl rfl rfl rfl) sound rfl
      · -- A line has been read, so there is fuel for those that are left.
        have hless : s'.source.length - s'.pos < fuel := by
          have hrest' := congrArg (fun r : Reader => r.rest.length) hview
          have hlt' := Cursor.length_rest_nextLine_lt hrest
          simp only [Scanner.rest_view, List.length_drop, Reader.rest_moveTo] at hrest' hlt'
          omega
        have hlines := ih sound hless
        rw [hview] at hlines
        exact hlines
    · -- The text has ended before the construct.
      have hrest : s.view.rest = [] := by simp [hge]
      rw [if_neg (Nat.not_lt_of_ge hge), Cursor.linesThrough, dif_pos hrest]
      exact unterminated_performs h hge what line

/-- Lines are read up to the one that ends the construct. -/
theorem skipLines_performs {ends : List Char → Scanning Bool} {p : List Char → Bool}
    (hends : ∀ line s, ends line s = some (.ok (p line), s)) (what : Unterminated) (line : Nat)
    (h : s.Sound) :
    Performs s (if (s.view.linesThrough p).1 then [] else [.unterminated what line],
      s.view.moveTo (s.view.linesThrough p).2) () (skipLines ends what line s) :=
  skipLinesFor_performs hends what line h (Nat.lt_succ_of_le (Nat.sub_le _ _))

/-- The bodies of heredocs are read one after the other. -/
theorem skipEachBody_performs (heredocs : List Heredoc) (h : s.Sound) :
    Performs s ((skipBodies heredocs s.view.toCursor).2,
      s.view.moveTo (skipBodies heredocs s.view.toCursor).1) () (skipEachBody heredocs s) := by
  induction heredocs generalizing s with
  | nil => exact .done rfl (Scanner.follows_nil rfl rfl rfl rfl rfl) h rfl
  | cons heredoc heredocs ih =>
    let next : Cursor := (s.view.linesThrough heredoc.endsAt).2
    -- The events of the first body come before those of the others.
    have hevents : (skipBodies (heredoc :: heredocs) s.view.toCursor).2
        = (if (s.view.linesThrough heredoc.endsAt).1 then []
            else [.unterminated (.heredoc (String.ofList heredoc.terminator)) s.view.line])
          ++ (skipBodies heredocs next).2 := by
      show (if (s.view.linesThrough heredoc.endsAt).1 then (skipBodies heredocs next).2
        else _ :: (skipBodies heredocs next).2) = _
      split <;> rfl
    rw [skipEachBody, bind_run, get_run, andThen_ok, bind_run, hevents]
    refine (skipLines_performs (fun _ _ => rfl) _ s.line h).bind fun s' _ sound hview => ?_
    have hbodies := ih sound
    rw [hview] at hbodies
    exact hbodies

/-- The bodies of all heredocs that are announced, after which none is. -/
private theorem skipHeredocBodies_performs (h : s.Sound) :
    Performs s ((skipBodies s.heredocs s.view.toCursor).2,
      { s.view.moveTo (skipBodies s.heredocs s.view.toCursor).1 with heredocs := [] }) ()
      (skipHeredocBodies s) := by
  rw [skipHeredocBodies, bind_run, get_run, andThen_ok, ite_run]
  split
  · next hempty =>
    have hheredocs : s.heredocs = [] := List.isEmpty_iff.mp hempty
    rw [hheredocs]
    refine .done rfl (Scanner.follows_nil rfl rfl rfl rfl rfl) h ?_
    simp only [Scanner.view, hheredocs]
    rfl
  · rw [bind_run]
    refine (skipEachBody_performs s.heredocs h).bind_last fun s' _ sound hview => ?_
    rw [modify_run, ← hview]
    exact .done rfl (Scanner.follows_nil rfl rfl rfl rfl rfl) sound rfl

/-- Whether a line ends an embedded document is told without a fault, since the character after the
    marker is asked for only where there is one. -/
private theorem isDocumentEnd_run (cs : List Char) (s : Scanner) :
    isDocumentEnd cs s = some (.ok (endsDocument cs), s) := by
  rw [isDocumentEnd, ite_run, endsDocument]
  split
  · next hprefix =>
    have hlength : 4 ≤ cs.length := (List.isPrefixOf_iff_prefix.mp hprefix).length_le
    rw [ite_run, hprefix]
    split
    · next hfour => simp [hfour]
    · next hfour =>
      obtain ⟨c, hc⟩ : ∃ c, cs[4]? = some c := ⟨_, List.getElem?_eq_getElem (by omega)⟩
      simp [item_run hc, hc]
  · next hprefix => rw [Bool.eq_false_iff.mpr hprefix, Bool.false_and, pure_run]

/-- An embedded document is read to its end. -/
theorem skipEmbeddedDocument_performs (h : s.Sound) (hpos : s.pos < s.source.length) :
    Performs s ((skipDocument s.view.toCursor).2, s.view.moveTo (skipDocument s.view.toCursor).1) ()
      (skipEmbeddedDocument s) := by
  rw [skipEmbeddedDocument, bind_run, get_run, andThen_ok, bind_run]
  refine (consumeLine_performs h (Nat.le_of_lt hpos)).bind_silent fun s' _ sound hview => ?_
  have hlines := skipLines_performs isDocumentEnd_run .embeddedDocument s.line sound
  rw [hview] at hlines
  exact hlines

/-- The innermost endless definition is taken away. -/
theorem popEndless_run {depth : Nat} {endless : List Nat} (h : s.endless = depth :: endless) :
    popEndless s = some (.ok (), { s with endless }) := by
  rw [popEndless, bind_run, get_run, andThen_ok, h]
  rfl

/-- The end that it implies is brought up in the file of the scanner. -/
theorem emitEnd_run (s : Scanner) :
    emitEnd s = some (.ok (),
      { s with emitted := s.emitted ++ [Reader.impliedEnd.inFile s.file] }) := rfl

/-- The endless definitions whose body is complete are closed. -/
theorem closeEndless_performs (h : s.Sound) :
    Performs s s.view.closeEndless () (closeEndless s) := by
  rw [closeEndless, bind_run, get_run, andThen_ok]
  -- By induction on the endless definitions that are open, from the innermost one outwards.
  induction hn : s.endless generalizing s with
  | nil =>
    have hview : s.view.endless = [] := hn
    rw [closeEndlessOf, Reader.closeEndless_eq_self (by simp [hview])]
    exact .done rfl (Scanner.follows_nil rfl rfl rfl rfl rfl) h rfl
  | cons depth endless ih =>
    rw [closeEndlessOf, bind_run, get_run, andThen_ok, hn, bind_run,
      item_run (show (depth :: endless)[0]? = some depth from rfl), andThen_ok, ite_run]
    split
    · next hdepth =>
      obtain ⟨rfl, hvalue⟩ := hdepth
      let s' : Scanner :=
        { s with endless, emitted := s.emitted ++ [Reader.impliedEnd.inFile s.file] }
      rw [bind_run, popEndless_run hn, andThen_ok, bind_run, emitEnd_run, andThen_ok,
        Reader.closeEndless_cons hn hvalue]
      have follows : s.Follows [Reader.impliedEnd] s' := ⟨rfl, rfl, rfl, rfl, rfl⟩
      exact .prepend rfl follows (ih h rfl)
    · next hdepth =>
      -- The innermost definition goes on, and so do those around it.
      have hview : s.view.endless = depth :: endless := hn
      have hstop : s.view.closeEndless = ([], s.view) :=
        Reader.closeEndless_eq_self (by rw [hview]; rintro _ ⟨⟩; exact hdepth)
      rw [hstop]
      exact .done rfl (Scanner.follows_nil rfl rfl rfl rfl rfl) h rfl

/-- The end of a line is read, and with it the bodies of heredocs. -/
theorem scanNewline_performs (h : s.Sound) (hc : s.source[s.pos]? = some '\n') :
    Performs s s.view.readNewline () (scanNewline s) := by
  have hlt : s.pos < s.source.length := (List.getElem?_eq_some_iff.mp hc).1
  let s' : Scanner :=
    { s with pos := s.pos + 1, line := s.line + 1, lineStart := s.pos + 1 }
  have hfind : s.find? '\n' s.pos = some s.pos := by
    rw [Scanner.find?, Scanner.drop_eq_cons hc, List.findIdx?_cons]
    simp
  have hview : s'.view = s.view.moveTo s.view.nextLine := by
    rw [show s.view.nextLine = _ from Scanner.nextLine_of_find?_eq_some h hfind]
    rfl
  have hsound : s'.Sound := ⟨Nat.le_refl _, hlt, Nat.succ_le_succ (Nat.le_of_lt hlt)⟩
  have follows : s.Follows [] s' := Scanner.follows_nil rfl rfl rfl rfl rfl
  have hbodies := skipHeredocBodies_performs hsound
  rw [hview] at hbodies
  let last : Reader :=
    { s.view.moveTo (skipBodies s.view.heredocs s.view.nextLine).1 with heredocs := [] }
  have hreading : s.view.readNewline
      = ((skipBodies s.view.heredocs s.view.nextLine).2 ++ last.closeEndless.1,
        last.closeEndless.2.markOperator) := rfl
  rw [scanNewline, bind_run, get_run, andThen_ok, bind_run, goTo_run, andThen_ok, bind_run,
    beginLine, modify_run, andThen_ok, bind_run, hreading]
  -- First come the bodies of heredocs, then the ends of endless definitions.
  refine .after follows (hbodies.bind fun s₁ _ sound₁ hview₁ => ?_)
  have hends : Performs s₁ (last.closeEndless.1, last.closeEndless.2) () (closeEndless s₁) := by
    rw [show last = s₁.view from hview₁.symm]
    exact closeEndless_performs sound₁
  rw [bind_run]
  refine hends.bind_last fun s₂ _ sound₂ hview₂ => ?_
  rw [← hview₂]
  exact .done rfl (Scanner.follows_nil rfl rfl rfl rfl rfl) sound₂ rfl

/-- A comment is read to the end of its line. -/
theorem scanComment_performs (h : s.Sound) (hpos : s.pos < s.source.length) :
    Performs s s.view.readComment () (scanComment s) := by
  let n := ((s.source.drop s.pos).takeWhile (· ≠ '\n')).length
  have hlast : (s.find? '\n' s.pos).getD s.source.length = s.pos + n :=
    Scanner.find?_getD (Nat.le_of_lt hpos)
  simp only [scanComment, bind_run, get_run, andThen_ok, goTo_run, emit_run, hlast,
    show s.slice s.pos (s.pos + n) = _ from s.slice_takeWhile _ _]
  -- Left are the token with its location and the place after it.
  refine .done rfl ⟨rfl, rfl, rfl, rfl, ?_⟩ (h.takeWhile _) ?_
  · rw [Scanner.locationOf_eq h (Nat.le_of_lt hpos)]
    simp only [Reader.readComment, List.map_cons, List.map_nil, Event.inFile, Token.inFile,
      Token.comment]
    rfl
  · exact Scanner.view_goTo h n

end Scanning

end ScopeTags.Source
