import Mathlib.Data.List.TakeWhile
import Mathlib.Tactic.SplitIfs
import ScopeTags.Proofs.ScannerOutcome
import ScopeTags.Proofs.StrictReading
import ScopeTags.Source.Nesting

/-!
# Literals by index

The functions of a scanner that skip literals call each other where a literal holds code and the
code holds literals again, and they share the position.  The reader has a stack of frames instead.
A call that is under way is the innermost frame, and the calls around it are the frames below.  So
there is room for the calls exactly where no more frames are open at once.

## Key results

- `skipFrames_append`: the innermost frames are done with before the other ones
- `deepest_append`: the outer frames stay open meanwhile
- `skips_call`: a call, and what is left of the function that makes it
- `skipsFor`: both functions at once, by induction on what is left of the text
- `skipDelimited_skips`, `skipRegex_skips`, `skipPercentLiteral_skips`
-/

namespace ScopeTags.Source

/-- The innermost frames are done with before the other ones. -/
theorem skipFrames_append (inner outer : List Frame) (p : Place) (cs : List Char) :
    skipFrames (inner ++ outer) p cs =
      let (k, events) := skipFrames inner p cs
      let (k', events') := skipFrames outer k.toPlace k.rest
      (k', events ++ events') := by
  -- By induction on the text.  Each character is read by the innermost frame of all.
  induction cs generalizing inner p with
  | nil =>
    cases inner with
    | nil => cases outer <;> simp [skipFrames]
    | cons frame inner =>
      cases outer with
      | nil => simp [skipFrames]
      | cons frame' outer =>
        simp only [skipFrames, List.cons_append, ← List.filterMap_append]
  | cons c cs ih =>
    cases inner with
    | nil => simp [skipFrames]
    | cons frame inner =>
      rw [List.cons_append, skipFrames, ← List.append_assoc, ih]
      rfl

/-- The outer frames stay open while the innermost ones are passed over. -/
theorem deepest_append (inner outer : List Frame) (p : Place) (cs : List Char) :
    deepest (inner ++ outer) p cs =
      max (deepest inner p cs + openCount outer)
        (deepest outer (skipFrames inner p cs).1.toPlace (skipFrames inner p cs).1.rest) := by
  -- Where no inner frame is open, the first of the two is part of the second.
  have hnil (cs : List Char) (p : Place) :
      deepest outer p cs = max (deepest [] p cs + openCount outer) (deepest outer p cs) := by
    rw [deepest, Nat.zero_add, Nat.max_eq_right (openCount_le_deepest outer p cs)]
  induction cs generalizing inner p with
  | nil =>
    cases inner with
    | nil => simpa only [skipFrames, List.nil_append] using hnil [] p
    | cons frame inner =>
      have houter : deepest outer p [] = openCount outer := by cases outer <;> rfl
      rw [List.cons_append, deepest, ← List.cons_append, openCount_append, deepest, skipFrames,
        houter]
      · omega
      all_goals simp
  | cons c cs ih =>
    cases inner with
    | nil => simpa only [skipFrames, List.nil_append] using hnil (c :: cs) p
    | cons frame inner =>
      rw [List.cons_append, deepest, ← List.cons_append, openCount_append, ← List.append_assoc, ih,
        deepest, skipFrames]
      omega

/-- There are no flags where the text has ended. -/
private theorem Reader.skipFlags_of_rest_eq_nil {r : Reader} (h : r.rest = []) :
    r.skipFlags = r := by
  have hcursor : r.toCursor.hop 0 = r.toCursor := rfl
  rw [skipFlags, h, List.takeWhile_nil, List.length_nil, hop, hcursor]

namespace Scanner

variable {s : Scanner} {i room : Nat} {c d : Char} {last : Reader → Reader}

/-- A text stands at a place if its first character does and the others follow. -/
theorem startsAt_cons {text : List Char} :
    s.startsAt (c :: text) i = true ↔ s.source[i]? = some c ∧ s.startsAt text (i + 1) = true := by
  rw [startsAt, startsAt, List.isPrefixOf_iff_prefix, List.isPrefixOf_iff_prefix]
  cases hd : s.source[i]? with
  | none => simp [List.drop_eq_nil_of_le (List.getElem?_eq_none_iff.mp hd)]
  | some d => rw [drop_eq_cons hd, List.cons_prefix_cons, Option.some.injEq, eq_comm]

/-- A single character. -/
theorem startsAt_singleton : s.startsAt [c] i = true ↔ s.source[i]? = some c := by
  rw [startsAt_cons]
  exact and_iff_left rfl

/-- Two characters. -/
theorem startsAt_pair :
    s.startsAt [c, d] i = true ↔ s.source[i]? = some c ∧ s.source[i + 1]? = some d := by
  rw [startsAt_cons, startsAt_singleton]

/-- What comes of passing over text from `i` on until none of the frames is open. -/
def skim (s : Scanner) (frames : List Frame) (i : Nat) : Cursor × List Event :=
  skipFrames frames (s.cursorAt i).toPlace (s.source.drop i)

/-- How many frames are open at once meanwhile. -/
def skimDepth (s : Scanner) (frames : List Frame) (i : Nat) : Nat :=
  deepest frames (s.cursorAt i).toPlace (s.source.drop i)

/-- The frames that are open at first count, too. -/
private theorem openCount_le_skimDepth (s : Scanner) (frames : List Frame) (i : Nat) :
    openCount frames ≤ s.skimDepth frames i :=
  openCount_le_deepest _ _ _

/-- Steps that pass over text from `i` on until none of the frames is open, and over what `last`
    passes over after that, if there is room for a call for each frame. -/
def Skips (s : Scanner) (room : Nat) (last : Reader → Reader) (frames : List Frame) (i : Nat) :
    Outcome Unit → Prop :=
  Within s room (s.skimDepth frames i)
    (Performs s ((s.skim frames i).2, last (s.view.moveTo (s.skim frames i).1)) ())

/-- One character is read that is no newline. -/
private theorem skim_cons (h : s.SoundAt i) (hc : s.source[i]? = some c) (hne : c ≠ '\n')
    (frame : Frame) (frames : List Frame) :
    s.skim (frame :: frames) i
      = s.skim (frame.read s.line c s.source[i + 1]? ++ frames) (i + 1) := by
  rw [skim, drop_eq_cons hc, skipFrames, skim, cursorAt_succ h hc hne, List.head?_drop]
  rfl

/-- How many frames are open at once where a character is read that is no newline. -/
private theorem skimDepth_cons (h : s.SoundAt i) (hc : s.source[i]? = some c) (hne : c ≠ '\n')
    (frame : Frame) (frames : List Frame) :
    s.skimDepth (frame :: frames) i = max (openCount (frame :: frames))
      (s.skimDepth (frame.read s.line c s.source[i + 1]? ++ frames) (i + 1)) := by
  rw [skimDepth, drop_eq_cons hc, deepest, skimDepth, cursorAt_succ h hc hne, List.head?_drop]
  rfl

/-- A newline is read. -/
private theorem skim_newline (hc : s.source[i]? = some '\n') (frame : Frame) (frames : List Frame) :
    s.skim (frame :: frames) i
      = { s with line := s.line + 1, lineStart := i + 1 }.skim
        (frame.read s.line '\n' s.source[i + 1]? ++ frames) (i + 1) := by
  rw [skim, drop_eq_cons hc, skipFrames, skim, cursorAt_newline hc, List.head?_drop]
  rfl

/-- How many frames are open at once where a newline is read. -/
private theorem skimDepth_newline (hc : s.source[i]? = some '\n') (frame : Frame)
    (frames : List Frame) : s.skimDepth (frame :: frames) i = max (openCount (frame :: frames))
      ({ s with line := s.line + 1, lineStart := i + 1 }.skimDepth
        (frame.read s.line '\n' s.source[i + 1]? ++ frames) (i + 1)) := by
  rw [skimDepth, drop_eq_cons hc, deepest, skimDepth, cursorAt_newline hc, List.head?_drop]
  rfl

/-- Nothing is passed over where no frame is open. -/
private theorem skim_nil (s : Scanner) (i : Nat) : s.skim [] i = (s.cursorAt i, []) := by
  rw [skim, skipFrames]
  rfl

/-- No frame is open. -/
private theorem skips_nil (h : s.SoundAt i) : s.Skips room id [] i (Scanning.goTo i s) := by
  rw [Skips, skim_nil, skimDepth, deepest]
  exact .fits (Nat.zero_le _) (.done rfl (follows_nil rfl rfl rfl rfl rfl) h rfl)

/-- The position does not matter for what is passed over from `i` on. -/
theorem Skips.of_goTo {frames : List Frame} {x : Outcome Unit} (j : Nat)
    (hx : { s with pos := j }.Skips room last frames i x) : s.Skips room last frames i x := by
  have follows : s.Follows [] { s with pos := j } := follows_nil rfl rfl rfl rfl rfl
  exact .after follows hx

/-- What `last` passes over is left for the steps after. -/
theorem Skips.bind_last {frames : List Frame} {x : Outcome Unit} {k : Unit → Scanning Unit}
    (hx : s.Skips room id frames i x)
    (hk : ∀ s' : Scanner, s'.Sound → Performs s' ([], last s'.view) () (k () s')) :
    s.Skips room last frames i (x.andThen k) := by
  refine Within.bind_last hx fun hperforms => hperforms.bind_last fun s' _ sound hview => ?_
  have hlast := hk s' sound
  rw [hview] at hlast
  exact hlast

/-- All places past the end of the text are one. -/
theorem cursorAt_of_length_le (hi : s.source.length ≤ i) :
    s.cursorAt i = s.cursorAt s.source.length := by
  rw [cursorAt, cursorAt, List.take_of_length_le hi, List.take_length, List.drop_eq_nil_of_le hi,
    List.drop_length, Nat.min_eq_right hi, Nat.min_self]

/-- No frame is opened there. -/
private theorem skimDepth_of_length_le (hi : s.source.length ≤ i) (frames : List Frame) :
    s.skimDepth frames i = openCount frames := by
  rw [skimDepth, List.drop_eq_nil_of_le hi]
  cases frames <;> rfl

/-- The text ends while the frame is open. -/
private theorem skips_end {frame : Frame} {what : Unterminated} {line : Nat} (h : s.SoundAt i)
    (hi : s.source.length ≤ i) (hreport : frame.report? = some (.unterminated what line))
    (hlast : ∀ r : Reader, r.rest = [] → last r = r) :
    s.Skips (room + 1) last [frame] i
      (Scanning.unterminated what line { s with pos := s.source.length }) := by
  -- The reader reports the frame, and nothing is left to read.
  have hskim : s.skim [frame] i
      = (s.cursorAt s.source.length, [.unterminated what line]) := by
    rw [skim, cursorAt_of_length_le hi, List.drop_eq_nil_of_le hi, skipFrames]
    · simp [hreport, cursorAt]
    · simp
  have hdepth : s.skimDepth [frame] i ≤ room + 1 := by
    rw [skimDepth_of_length_le hi]
    exact openCount_singleton_le frame room
  have hsound : { s with pos := s.source.length }.Sound :=
    ⟨h.lineStart_le_length, h.lineStart_le_length, Nat.le_succ _⟩
  have follows : s.Follows [] { s with pos := s.source.length } := follows_nil rfl rfl rfl rfl rfl
  rw [Skips, hskim, hlast _ (by simp)]
  exact .fits hdepth
    (.after follows (Scanning.unterminated_performs hsound (Nat.le_refl _) what line))

/-- A character is read that is no newline. -/
private theorem skips_cons {frame : Frame} {x : Outcome Unit} (h : s.SoundAt i)
    (hc : s.source[i]? = some c) (hne : c ≠ '\n')
    (hx : s.Skips (room + 1) last (frame.read s.line c s.source[i + 1]?) (i + 1) x) :
    s.Skips (room + 1) last [frame] i x := by
  rw [Skips, skim_cons h hc hne, skimDepth_cons h hc hne, List.append_nil]
  exact hx.max_left (.inl (openCount_singleton_le frame room))

/-- A newline is read. -/
private theorem skips_newline {frame : Frame} {x : Outcome Unit} (hc : s.source[i]? = some '\n')
    (hx : { s with line := s.line + 1, lineStart := i + 1 }.Skips (room + 1) last
      (frame.read s.line '\n' s.source[i + 1]?) (i + 1) x) :
    s.Skips (room + 1) last [frame] i x := by
  have follows : s.Follows [] { s with line := s.line + 1, lineStart := i + 1 } :=
    follows_nil rfl rfl rfl rfl rfl
  rw [Skips, skim_newline hc, skimDepth_newline hc, List.append_nil]
  refine .max_left ?_ (.inl (openCount_singleton_le frame room))
  exact .after follows hx

/-- A single character is read that is no newline, whatever is open around it. -/
private theorem skips_single {frames : List Frame} {x : Outcome Unit} (h : s.SoundAt i)
    (hc : s.source[i]? = some c) (hne : c ≠ '\n') (hx : s.Skips room last frames (i + 1) x) :
    s.Skips room last (.single :: frames) i x := by
  rw [Skips, skim_cons h hc hne, skimDepth_cons h hc hne]
  exact hx.max_left (.inr (s.openCount_le_skimDepth frames (i + 1)))

/-- A single newline is read. -/
private theorem skips_single_newline {frames : List Frame} {x : Outcome Unit}
    (hc : s.source[i]? = some '\n')
    (hx : { s with line := s.line + 1, lineStart := i + 1 }.Skips room last frames (i + 1) x) :
    s.Skips room last (.single :: frames) i x := by
  have follows : s.Follows [] { s with line := s.line + 1, lineStart := i + 1 } :=
    follows_nil rfl rfl rfl rfl rfl
  rw [Skips, skim_newline hc, skimDepth_newline hc]
  refine .max_left ?_ (.inr (openCount_le_skimDepth _ frames (i + 1)))
  exact .after follows hx

/-- A backslash is read, and the character after it, whatever that is. -/
private theorem skips_escape {frame : Frame} {m : Scanning Unit} (h : s.SoundAt i)
    (hc : s.source[i]? = some '\\')
    (hread : frame.read s.line '\\' s.source[i + 1]? = [.single, frame])
    (hm : ∀ s' : Scanner, s'.source = s.source → s'.SoundAt (i + 2) →
      s'.Skips (room + 1) last [frame] (i + 2) (m s')) :
    s.Skips (room + 1) last [frame] i ((Scanning.escapeAt i >>= fun _ => m) s) := by
  have hi : i < s.source.length := (List.getElem?_eq_some_iff.mp hc).1
  refine skips_cons h hc (by decide) ?_
  rw [hread, Scanning.bind_run, Scanning.escapeAt, Scanning.bind_run, Scanning.get_run,
    Scanning.andThen_ok, Scanning.ite_run]
  have h₁ : s.SoundAt (i + 1) := h.of_le (Nat.le_succ i) (Nat.le_succ_of_le hi)
  cases hd : s.source[i + 1]? with
  | none =>
    -- The backslash is the last character: the position steps one past the end.
    have hend : s.source.length ≤ i + 1 := List.getElem?_eq_none_iff.mp hd
    have hend₂ : s.source.length ≤ i + 2 := Nat.le_succ_of_le hend
    have hskim : s.skim [.single, frame] (i + 1) = s.skim [frame] (i + 2) := by
      rw [skim, skim, cursorAt_of_length_le hend, cursorAt_of_length_le hend₂,
        List.drop_eq_nil_of_le hend, List.drop_eq_nil_of_le hend₂]
      simp [skipFrames, List.filterMap_cons, Frame.report?]
    have hdepth : s.skimDepth [.single, frame] (i + 1) = s.skimDepth [frame] (i + 2) := by
      rw [skimDepth_of_length_le hend, skimDepth_of_length_le hend₂]
      rfl
    rw [if_neg (by simp [startsAt_singleton, hd]), Scanning.pure_run, Scanning.andThen_ok, Skips,
      hskim, hdepth]
    exact hm s rfl (h.of_le (by omega) (by omega))
  | some d =>
    have hi₁ : i + 1 < s.source.length := (List.getElem?_eq_some_iff.mp hd).1
    by_cases hne : d = '\n'
    · subst hne
      rw [if_pos (startsAt_singleton.mpr hd)]
      exact skips_single_newline hd
        (hm _ rfl ⟨Nat.le_refl _, hi₁, Nat.succ_le_succ (Nat.le_of_lt hi₁)⟩)
    · rw [if_neg (by simp [startsAt_singleton, hd, hne])]
      exact skips_single h₁ hd hne (hm s rfl (h₁.of_le (Nat.le_succ _) (by omega)))

/-! ## Calls -/

section Calls

variable {inner frame : Frame} {callee : Nat → Scanning Unit}

/-- A frame that needs a call counts as one. -/
private theorem skimDepth_pos (hframe : frame.nests) (i : Nat) : 0 < s.skimDepth [frame] i := by
  have hle := s.openCount_le_skimDepth [frame] i
  rwa [openCount_cons_of_nests hframe] at hle

/-- Where there is no room for the function that skips the frame, nothing is skipped. -/
private theorem call_skips (h : s.Sound) (hframe : frame.nests)
    (hcallee : ∀ left, s.Skips (left + 1) last [frame] i (callee left s)) :
    s.Skips room last [frame] i (Scanning.call room callee s) := by
  cases room with
  | zero => exact .tooDeep (skimDepth_pos hframe i) rfl rfl h
  | succ left => exact hcallee left

/-- A frame inside of another is skipped by a call, after which the function that makes the call
    goes on. -/
theorem skips_call {k : Scanning Unit} (h : s.Sound) (hinner : inner.nests) (hframe : frame.nests)
    (hcallee : ∀ left, s.Skips (left + 1) id [inner] i (callee left s))
    (hk : ∀ s' : Scanner, s'.Sound → s'.source = s.source →
      s.source.length - s'.pos ≤ s.source.length - i →
      s'.Skips (room + 1) last [frame] s'.pos (k s')) :
    s.Skips (room + 1) last [inner, frame] i
      (Outcome.andThen (Scanning.call room callee s) fun _ => k) := by
  obtain ⟨place, hplace⟩ : ∃ place, (s.skim [inner] i).1 = place := ⟨_, rfl⟩
  -- The reader passes over the inner frame, and over the other from where that has ended.
  have hskim : s.skim ([inner] ++ [frame]) i
      = ((skipFrames [frame] place.toPlace place.rest).1,
        (s.skim [inner] i).2 ++ (skipFrames [frame] place.toPlace place.rest).2) := by
    rw [skim, skipFrames_append, ← hplace]
    rfl
  have hdepth : s.skimDepth ([inner] ++ [frame]) i
      = max (s.skimDepth [inner] i + 1) (deepest [frame] place.toPlace place.rest) := by
    rw [skimDepth, deepest_append, openCount_cons_of_nests hframe, ← hplace]
    rfl
  -- The call has one place less than the function that makes it, which stays open.
  have hcall : Within s (room + 1) (s.skimDepth [inner] i + 1)
      (Performs s ((s.skim [inner] i).2, s.view.moveTo place) ())
      (Scanning.call room callee s) := by
    rw [← hplace]
    exact (call_skips h hinner hcallee).succ
  generalize Scanning.call room callee s = x at hcall
  show s.Skips (room + 1) last ([inner] ++ [frame]) i _
  rw [Skips, hskim, hdepth]
  refine hcall.bind fun hperforms => ?_
  cases hperforms with
  | done quiet follows sound view =>
    rename_i s'
    have hcursor : s'.cursorAt s'.pos = place := congrArg Reader.toCursor view
    -- The position has not moved back, so the fuel that is left is enough.
    have hshorter : s.source.length - s'.pos ≤ s.source.length - i := by
      have hle := length_rest_skipFrames_le [inner] (s.cursorAt i).toPlace (s.source.drop i)
      have hrest := congrArg (fun k : Cursor => k.rest.length) (hcursor.trans hplace.symm)
      simp only [rest_cursorAt, List.length_drop, follows.source, skim] at hrest hle
      omega
    have hnext := hk s' sound follows.source hshorter
    rw [Skips, skim, skimDepth, ← rest_cursorAt, hcursor, view] at hnext
    exact hnext.prepend follows (.prepend quiet follows)
  | failed fault_eq follows sound atEnd =>
    -- A fault comes where the text ends, and nothing is called after that.
    have hevents : (s.skim [inner] i).2 ≠ [] := by
      intro hnil
      rw [hnil] at fault_eq
      cases fault_eq
    have hrest : place.rest = [] := by
      rw [← hplace]
      exact rest_skipFrames _ _ _ hevents
    rw [hrest]
    refine .fits (openCount_singleton_le frame room) (.failed ?_ ?_ sound atEnd)
    · rw [fault?_append, fault_eq, Option.some_or]
    · rw [heeded_append_of_fault fault_eq]
      exact follows

end Calls

end Scanner

namespace Scanning

open Source.Scanner

variable {s : Scanner} {i room : Nat} {last : Reader → Reader}

/-- Code inside of a literal is read, and then what is left of the literal. -/
private theorem skips_hash {frame : Frame} {code : Nat → Scanning Unit} {k : Scanning Unit}
    (h : s.SoundAt i) (hc : s.source[i]? = some '#') (hd : s.source[i + 1]? = some '\x7b')
    (hframe : frame.nests)
    (hread : frame.read s.line '#' (some '\x7b') = [.single, .interpolation 0 s.line, frame])
    (hcode : ∀ left, { s with pos := i + 2 }.Skips (left + 1) id [.interpolation 0 s.line] (i + 2)
      (code left { s with pos := i + 2 }))
    (hk : ∀ s' : Scanner, s'.Sound → s'.source = s.source →
      s.source.length - s'.pos ≤ s.source.length - (i + 2) →
      s'.Skips (room + 1) last [frame] s'.pos (k s')) :
    s.Skips (room + 1) last [frame] i ((do
      goTo (i + 2)
      call room code
      k) s) := by
  have hi : i + 1 < s.source.length := (List.getElem?_eq_some_iff.mp hd).1
  have hafter : s.SoundAt (i + 2) := h.of_le (by omega) (by omega)
  refine skips_cons h hc (by decide) ?_
  rw [hd, hread]
  refine skips_single (h.of_le (Nat.le_succ i) (by omega)) hd (by decide) ?_
  rw [bind_run, goTo_run, andThen_ok, bind_run]
  exact .of_goTo (i + 2) (skips_call hafter rfl hframe hcode hk)

/-- The two functions that skip literals and the code in them do what the reader does with frames,
    from any place on after which fewer than `fuel` characters are left. -/
structure SkipsFor (fuel : Nat) : Prop where
  body : ∀ {s : Scanner} {i : Nat} (close : Char) (opener : Option Char) (interpolates : Bool)
    (line room nesting : Nat), s.SoundAt i → s.source.length - i < fuel →
    s.Skips (room + 1) id [.body close opener interpolates nesting line] i
      (skipDelimitedFor close opener interpolates line fuel room nesting i s)
  code : ∀ {s : Scanner} {i : Nat} (line room depth : Nat), s.SoundAt i →
    s.source.length - i < fuel →
    s.Skips (room + 1) id [.interpolation depth line] i
      (skipInterpolationFor line fuel room depth i s)

/-- One round in a literal, where the rounds after it do what they should. -/
theorem skipDelimitedFor_skips {fuel : Nat} (ih : SkipsFor fuel) (close : Char)
    (opener : Option Char) (interpolates : Bool) (line room nesting : Nat) (h : s.SoundAt i)
    (hfuel : s.source.length - i < fuel + 1) :
    s.Skips (room + 1) id [.body close opener interpolates nesting line] i
      (skipDelimitedFor close opener interpolates line (fuel + 1) room nesting i s) := by
  rw [skipDelimitedFor, bind_run, get_run, andThen_ok, ite_run]
  by_cases hi : i < s.source.length
  · obtain ⟨c, hc⟩ : ∃ c, s.source[i]? = some c := ⟨_, List.getElem?_eq_getElem hi⟩
    have hnext : s.SoundAt (i + 1) := h.of_le (Nat.le_succ i) (Nat.succ_le_succ (Nat.le_of_lt hi))
    -- The literal goes on after a character that is no newline.
    have hstep (hne : c ≠ '\n') (nesting' : Nat)
        (hread : (Frame.body close opener interpolates nesting line).read s.line c
          s.source[i + 1]? = [.body close opener interpolates nesting' line]) :
        s.Skips (room + 1) id [.body close opener interpolates nesting line] i
          (skipDelimitedFor close opener interpolates line fuel room nesting' (i + 1) s) := by
      refine skips_cons h hc hne ?_
      rw [hread]
      exact ih.body close opener interpolates line room nesting' hnext (by omega)
    rw [if_pos hi, bind_run, charAt_run hc, andThen_ok]
    -- The cases are those of `Frame.read`: an escape, a newline, code, another pair, the end.
    split_ifs with hescape hnewline hhash hopener hclose hzero
    · subst hescape
      refine skips_escape h hc rfl fun s' hsource h' => ?_
      exact ih.body close opener interpolates line room nesting h' (by rw [hsource]; omega)
    · subst hnewline
      refine skips_newline hc ?_
      exact ih.body close opener interpolates line room nesting
        ⟨Nat.le_refl _, hi, hnext.le_length⟩ (show s.source.length - (i + 1) < fuel by omega)
    · obtain ⟨hinterpolates, rfl, hbrace⟩ := hhash
      have hd := startsAt_singleton.mp hbrace
      have hi₁ : i + 1 < s.source.length := (List.getElem?_eq_some_iff.mp hd).1
      refine skips_hash h hc hd rfl (by simp [Frame.read, hinterpolates]) ?_
        fun s' sound hsource hle => ?_
      · intro left
        have hafter : s.SoundAt (i + 2) := h.of_le (by omega) (by omega)
        exact ih.code s.line left 0 hafter (show s.source.length - (i + 2) < fuel by omega)
      · rw [bind_run, get_run, andThen_ok]
        exact ih.body close opener interpolates line room nesting sound (by rw [hsource]; omega)
    all_goals rw [startsAt_singleton] at hhash
    · apply hstep hnewline (nesting + 1)
      simp only [Frame.read, if_neg hescape, if_neg hnewline, if_neg hhash, if_pos hopener]
    · subst hzero
      refine skips_cons h hc hnewline ?_
      simp only [Frame.read, if_neg hescape, if_neg hnewline, if_neg hhash, if_neg hopener,
        if_pos hclose]
      exact skips_nil hnext
    · obtain ⟨outer, rfl⟩ := Nat.exists_eq_succ_of_ne_zero hzero
      apply hstep hnewline outer
      simp only [Frame.read, if_neg hescape, if_neg hnewline, if_neg hhash, if_neg hopener,
        if_pos hclose]
    · apply hstep hnewline nesting
      simp only [Frame.read, if_neg hescape, if_neg hnewline, if_neg hhash, if_neg hopener,
        if_neg hclose]
  · rw [if_neg hi, bind_run, goTo_run, andThen_ok]
    exact skips_end h (Nat.le_of_not_lt hi) rfl fun _ _ => rfl

/-- One round in the code of an interpolation skips what the frame says. -/
private theorem skipInterpolationFor_skips {fuel : Nat} (ih : SkipsFor fuel) (line room depth : Nat)
    (h : s.SoundAt i) (hfuel : s.source.length - i < fuel + 1) :
    s.Skips (room + 1) id [.interpolation depth line] i
      (skipInterpolationFor line (fuel + 1) room depth i s) := by
  rw [skipInterpolationFor, bind_run, get_run, andThen_ok, ite_run]
  by_cases hi : i < s.source.length
  · obtain ⟨c, hc⟩ : ∃ c, s.source[i]? = some c := ⟨_, List.getElem?_eq_getElem hi⟩
    have hnext : s.SoundAt (i + 1) := h.of_le (Nat.le_succ i) (Nat.succ_le_succ (Nat.le_of_lt hi))
    -- The code goes on after a character that is no newline.
    have hstep (hne : c ≠ '\n') (depth' : Nat)
        (hread : (Frame.interpolation depth line).read s.line c s.source[i + 1]?
          = [.interpolation depth' line]) :
        s.Skips (room + 1) id [.interpolation depth line] i
          (skipInterpolationFor line fuel room depth' (i + 1) s) := by
      refine skips_cons h hc hne ?_
      rw [hread]
      exact ih.code line room depth' hnext (by omega)
    rw [if_pos hi, bind_run, charAt_run hc, andThen_ok]
    split_ifs with hquote hnewline hopen hclose hzero
    · -- A string is skipped by a call.
      have hne : c ≠ '\n' := by rintro rfl; cases hquote
      refine skips_cons h hc hne ?_
      simp only [Frame.read, if_pos hquote]
      rw [bind_run, goTo_run, andThen_ok, bind_run]
      refine .of_goTo (i + 1) (skips_call hnext rfl rfl ?_ fun s' sound hsource hle => ?_)
      · intro left
        exact ih.body c none (c ≠ '\x27') s.line left 0 hnext
          (show s.source.length - (i + 1) < fuel by omega)
      · have hle' : s.source.length - s'.pos ≤ s.source.length - (i + 1) := hle
        have hless : s'.source.length - s'.pos < fuel := by
          rw [hsource]
          show s.source.length - s'.pos < fuel
          omega
        rw [bind_run, get_run, andThen_ok]
        exact ih.code line room depth sound hless
    · subst hnewline
      refine skips_newline hc ?_
      exact ih.code line room depth ⟨Nat.le_refl _, hi, hnext.le_length⟩
        (show s.source.length - (i + 1) < fuel by omega)
    · apply hstep hnewline (depth + 1)
      simp only [Frame.read, if_neg hquote, if_pos hopen]
    · subst hzero
      refine skips_cons h hc hnewline ?_
      simp only [Frame.read, if_neg hquote, if_neg hopen, if_pos hclose]
      exact skips_nil hnext
    · obtain ⟨outer, rfl⟩ := Nat.exists_eq_succ_of_ne_zero hzero
      apply hstep hnewline outer
      simp only [Frame.read, if_neg hquote, if_neg hopen, if_pos hclose]
    · apply hstep hnewline depth
      simp only [Frame.read, if_neg hquote, if_neg hopen, if_neg hclose]
  · rw [if_neg hi, bind_run, goTo_run, andThen_ok]
    exact skips_end h (Nat.le_of_not_lt hi) rfl fun _ _ => rfl

/-- The two functions that call each other do what the reader does, from any place on. -/
theorem skipsFor (fuel : Nat) : SkipsFor fuel := by
  -- By induction on the fuel, with both functions at once as each of them calls the other.
  induction fuel with
  | zero => exact ⟨by omega, by omega⟩
  | succ fuel ih => exact ⟨skipDelimitedFor_skips ih, skipInterpolationFor_skips ih⟩

/-- A literal is skipped from just inside of it. -/
theorem skipDelimited_skips (close : Char) (opener : Option Char) (interpolates : Bool)
    (h : s.Sound) (room : Nat) :
    s.Skips (room + 1) id [.body close opener interpolates 0 s.line] s.pos
      (skipDelimited close opener interpolates room s) := by
  rw [skipDelimited, bind_run, get_run, andThen_ok, loop_run]
  exact (skipsFor _).body close opener interpolates s.line room 0 h (by omega)

/-- The code of an interpolation is skipped as its frame says. -/
theorem skipInterpolation_skips (h : s.Sound) (room : Nat) :
    s.Skips (room + 1) id [.interpolation 0 s.line] s.pos (skipInterpolation room s) := by
  rw [skipInterpolation, bind_run, get_run, andThen_ok, loop_run]
  exact (skipsFor _).code s.line room 0 h (by omega)

/-- A string is skipped from the character after its opening quote on. -/
theorem skipString_skips (quote : Char) (h : s.Sound) (hpos : s.pos < s.source.length) :
    s.Skips s.limit id [.string quote s.line] (s.pos + 1) (skipString quote s) := by
  have hsound : { s with pos := s.pos + 1 }.Sound :=
    h.of_le (Nat.le_succ _) (Nat.succ_le_succ (Nat.le_of_lt hpos))
  rw [skipString, bind_run, get_run, andThen_ok, bind_run, goTo_run, andThen_ok]
  exact .of_goTo (s.pos + 1)
    (call_skips hsound rfl (skipDelimited_skips quote none _ hsound))

/-- A literal that is skipped completes an operand. -/
theorem skips_markValue {frame : Nat → Frame} {n : Nat} {x : Outcome Unit} (h : s.Sound)
    (hx : s.Skips s.limit last [frame s.line] (s.pos + n) x)
    (hlast : ∀ r : Reader, last r.markValue = (last r).markValue) :
    PerformsAt s (s.view.literalDepth n frame)
      ((s.view.skipLiteral n frame).1, last (s.view.skipLiteral n frame).2) ()
      (x.andThen fun _ => markValue) := by
  have hskim : s.view.skipLiteral n frame = ((s.skim [frame s.line] (s.pos + n)).2,
      (s.view.moveTo (s.skim [frame s.line] (s.pos + n)).1).markValue) := by
    rw [skim, ← rest_cursorAt, cursorAt_add h]
    rfl
  have hdepth : s.view.literalDepth n frame = s.skimDepth [frame s.line] (s.pos + n) := by
    rw [skimDepth, ← rest_cursorAt, cursorAt_add h]
    rfl
  rw [hskim, hlast, hdepth]
  refine Within.bind_last hx fun hperforms => hperforms.bind_last fun s' _ sound hview => ?_
  rw [← hview]
  exact .done rfl (follows_nil rfl rfl rfl rfl rfl) sound rfl

/-- A literal after which nothing else is passed over. -/
theorem skipLiteral_performs {frame : Nat → Frame} {n : Nat} {x : Outcome Unit} (h : s.Sound)
    (hx : s.Skips s.limit id [frame s.line] (s.pos + n) x) :
    PerformsAt s (s.view.literalDepth n frame) (s.view.skipLiteral n frame) ()
      (x.andThen fun _ => markValue) :=
  skips_markValue h hx fun _ => rfl

/-- The flags of a regular expression are skipped. -/
private theorem skipFlags_performs (h : s.Sound) : Performs s ([], s.view.skipFlags) ()
    (skipFlags s) := by
  rw [skipFlags, bind_run, get_run, andThen_ok, bind_run, scanWhile_run, andThen_ok, goTo_run]
  exact .done rfl (follows_nil rfl rfl rfl rfl rfl) (h.takeWhile isRegexFlag) (view_goTo h _)

/-- A regular expression is skipped from any place in it on. -/
private theorem skipRegexFor_skips (line : Nat) (inClass : Bool) {fuel : Nat} (h : s.SoundAt i)
    (hfuel : s.source.length - i < fuel) :
    s.Skips (room + 1) Reader.skipFlags [.regex inClass line] i
      (skipRegexFor line room fuel inClass i s) := by
  -- By induction on the fuel; whether the place is inside of a class may change on the way.
  induction fuel generalizing s i inClass with
  | zero => omega
  | succ fuel ih =>
    rw [skipRegexFor, bind_run, get_run, andThen_ok, ite_run]
    by_cases hi : i < s.source.length
    · obtain ⟨c, hc⟩ : ∃ c, s.source[i]? = some c := ⟨_, List.getElem?_eq_getElem hi⟩
      have hnext : s.SoundAt (i + 1) :=
        h.of_le (Nat.le_succ i) (Nat.succ_le_succ (Nat.le_of_lt hi))
      -- The expression goes on after a character that is no newline.
      have hstep (hne : c ≠ '\n') (inClass' : Bool)
          (hread : (Frame.regex inClass line).read s.line c s.source[i + 1]?
            = [.regex inClass' line]) :
          s.Skips (room + 1) Reader.skipFlags [.regex inClass line] i
            (skipRegexFor line room fuel inClass' (i + 1) s) := by
        refine skips_cons h hc hne ?_
        rw [hread]
        exact ih inClass' hnext (by omega)
      rw [if_pos hi, bind_run, charAt_run hc, andThen_ok]
      split_ifs with hescape hnewline hhash hopen hclose hslash
      · subst hescape
        refine skips_escape h hc rfl fun s' hsource h' => ?_
        exact ih inClass h' (by rw [hsource]; omega)
      · subst hnewline
        refine skips_newline hc ?_
        exact ih inClass ⟨Nat.le_refl _, hi, hnext.le_length⟩
          (show s.source.length - (i + 1) < fuel by omega)
      · obtain ⟨rfl, hbrace⟩ := hhash
        have hd := startsAt_singleton.mp hbrace
        have hi₁ : i + 1 < s.source.length := (List.getElem?_eq_some_iff.mp hd).1
        refine skips_hash h hc hd rfl rfl ?_ fun s' sound hsource hle => ?_
        · have hafter : s.SoundAt (i + 2) := h.of_le (by omega) (by omega)
          exact skipInterpolation_skips (s := { s with pos := i + 2 }) hafter
        · rw [bind_run, get_run, andThen_ok]
          exact ih inClass sound (by rw [hsource]; omega)
      all_goals rw [startsAt_singleton] at hhash
      · apply hstep hnewline true
        simp only [Frame.read, if_neg hescape, if_neg hhash, if_pos hopen]
      · apply hstep hnewline false
        simp only [Frame.read, if_neg hescape, if_neg hhash, if_neg hopen, if_pos hclose]
      · -- The last slash is followed by the flags.
        refine skips_cons h hc hnewline ?_
        simp only [Frame.read, if_neg hescape, if_neg hhash, if_neg hopen, if_neg hclose,
          if_pos hslash]
        rw [bind_run]
        exact .bind_last (skips_nil hnext) fun _ => skipFlags_performs
      · apply hstep hnewline inClass
        simp only [Frame.read, if_neg hescape, if_neg hhash, if_neg hopen, if_neg hclose,
          if_neg hslash]
    · rw [if_neg hi, bind_run, goTo_run, andThen_ok]
      exact skips_end h (Nat.le_of_not_lt hi) rfl fun _ => Reader.skipFlags_of_rest_eq_nil

/-- A regular expression is skipped from the character after its first slash on. -/
theorem skipRegex_skips (h : s.Sound) (hpos : s.pos < s.source.length) :
    s.Skips s.limit Reader.skipFlags [.regex false s.line] (s.pos + 1) (skipRegex s) := by
  rw [skipRegex, bind_run, get_run, andThen_ok]
  refine call_skips h rfl fun left => ?_
  rw [loop_run]
  exact skipRegexFor_skips s.line false
    (h.of_le (Nat.le_succ _) (Nat.succ_le_succ (Nat.le_of_lt hpos))) (by omega)

/-! ## Percent literals -/

/-- The frame of a percent literal. -/
private theorem percent_eq (type delim : Char) (line : Nat) :
    Frame.percent type delim line
      = .body ((closing? delim).getD delim) (if (closing? delim).isSome then some delim else none)
        (!isRawPercentType type) 0 line := by
  rw [Frame.percent]
  cases closing? delim <;> rfl

/-- What is passed over after a percent literal. -/
def afterPercent (type : Char) (r : Reader) : Reader := if type = 'r' then r.skipFlags else r

/-- A percent literal is skipped from its delimiter on. -/
private theorem skipEnclosed_skips {type delim : Char} (h : s.SoundAt i)
    (hc : s.source[i]? = some delim) :
    s.Skips s.limit (afterPercent type) [.percent type delim s.line] (i + 1)
      (skipEnclosed type i s) := by
  have hi : i < s.source.length := (List.getElem?_eq_some_iff.mp hc).1
  have hnext : s.SoundAt (i + 1) := h.of_le (Nat.le_succ i) (Nat.succ_le_succ (Nat.le_of_lt hi))
  rw [skipEnclosed, bind_run, charAt_run hc, andThen_ok, bind_run, goTo_run, andThen_ok, bind_run,
    get_run, andThen_ok, bind_run, percent_eq]
  refine .of_goTo (i + 1) (.bind_last ?_ fun s' sound => ?_)
  · exact call_skips (s := { s with pos := i + 1 }) hnext rfl (skipDelimited_skips _ _ _ hnext)
  rw [ite_run, afterPercent]
  split
  · exact skipFlags_performs sound
  · exact .done rfl (follows_nil rfl rfl rfl rfl rfl) sound rfl

/-- Whether a percent literal starts is seen on the next two characters. -/
theorem atPercentLiteral_eq (s : Scanner) :
    s.atPercentLiteral = (percentOpening? (s.source.drop (s.pos + 1))).isSome := by
  rw [atPercentLiteral]
  cases hc : s.source[s.pos + 1]? with
  | none =>
    rw [List.drop_eq_nil_of_le (List.getElem?_eq_none_iff.mp hc)]
    rfl
  | some c =>
    rw [drop_eq_cons hc, percentOpening?.eq_def]
    cases hd : s.source[s.pos + 2]? with
    | none =>
      rw [List.drop_eq_nil_of_le (List.getElem?_eq_none_iff.mp hd)]
      grind
    | some d =>
      rw [drop_eq_cons hd]
      grind

/-- A percent literal is skipped from the character after its delimiter on. -/
theorem skipPercentLiteral_skips {type delim : Char} {n : Nat} (h : s.Sound)
    (hopening : percentOpening? (s.source.drop (s.pos + 1)) = some (type, delim, n)) :
    s.Skips s.limit (afterPercent type) [.percent type delim s.line] (s.pos + n)
      (skipPercentLiteral s) := by
  cases hc : s.source[s.pos + 1]? with
  | none =>
    rw [List.drop_eq_nil_of_le (List.getElem?_eq_none_iff.mp hc)] at hopening
    cases hopening
  | some c =>
    have hpos : s.pos + 1 < s.source.length := (List.getElem?_eq_some_iff.mp hc).1
    have h₁ : s.SoundAt (s.pos + 1) := h.of_le (by omega) (by omega)
    rw [drop_eq_cons hc, percentOpening?.eq_def] at hopening
    rw [skipPercentLiteral, bind_run, get_run, andThen_ok, bind_run, charAt_run hc, andThen_ok,
      ite_run]
    split
    · next htype =>
      -- A letter says which type it is, and the delimiter comes after it.
      have h₂ : s.SoundAt (s.pos + 2) := h.of_le (by omega) (by omega)
      cases hd : s.source[s.pos + 2]? with
      | none =>
        rw [List.drop_eq_nil_of_le (List.getElem?_eq_none_iff.mp hd)] at hopening
        simp [htype] at hopening
      | some d =>
        rw [drop_eq_cons hd] at hopening
        obtain ⟨rfl, rfl, rfl⟩ : c = type ∧ d = delim ∧ n = 3 := by grind
        exact skipEnclosed_skips h₂ hd
    · next htype =>
      obtain ⟨rfl, rfl, rfl⟩ : 'Q' = type ∧ c = delim ∧ n = 2 := by grind
      exact skipEnclosed_skips h₁ hc

/-! ## Heredocs -/

/-- A terminator between quotes is found by looking for the second quote, unless a newline comes
    first. -/
theorem terminator?_of_isQuote {indented : Bool} {c : Char} {name rest : List Char}
    (hquote : isQuote c) (hname : c ∉ name) :
    Heredoc.terminator? indented (c :: (name ++ c :: rest))
      = if '\n' ∈ name then none else some (name, name.length + 2) := by
  have hc : c ≠ '\n' := by rintro rfl; cases hquote
  split
  · next hnewline =>
    -- The reader stops at the first newline, which is not the quote.
    obtain ⟨before, after, rfl, hbefore⟩ := List.eq_append_cons_of_mem hnewline
    rw [List.append_assoc, List.cons_append, Heredoc.terminator?, if_pos hquote,
      List.takeWhile_append_of_pos (by grind)]
    simp [hc.symm]
  · next hnewline =>
    rw [Heredoc.terminator?, if_pos hquote, List.takeWhile_append_of_pos (by grind)]
    simp

/-- There is no terminator without a second quote. -/
private theorem terminator?_of_not_mem {indented : Bool} {c : Char} {cs : List Char}
    (hquote : isQuote c) (hcs : c ∉ cs) : Heredoc.terminator? indented (c :: cs) = none := by
  rw [Heredoc.terminator?, if_pos hquote]
  exact if_neg fun hc => hcs (List.mem_of_getElem? hc)

/-- The terminator of a heredoc is read as the reader does. -/
private theorem heredocTerminator?_run (indented : Bool) {c : Char} (hc : s.source[i]? = some c) :
    heredocTerminator? indented i s
      = some (.ok ((Heredoc.terminator? indented (s.source.drop i)).map fun (name, n) =>
          (name, i + n)), s) := by
  rw [heredocTerminator?, bind_run, get_run, andThen_ok, bind_run, charAt_run hc, andThen_ok,
    ite_run, drop_eq_cons hc]
  split
  · next hquote =>
    cases hfind : s.find? c (i + 1) with
    | none =>
      have hnone : c ∉ s.source.drop (i + 1) := by
        intro hmem
        rw [← (find?_eq_none hfind).1] at hmem
        simpa using List.mem_takeWhile_imp hmem
      rw [terminator?_of_not_mem hquote hnone]
      rfl
    | some last =>
      obtain ⟨hle, hlast, htake, hdrop⟩ := find?_eq_some hfind
      have hlt : last < s.source.length := (List.getElem?_eq_some_iff.mp hlast).1
      -- The name goes up to the second quote.
      have hsplit : s.source.drop (i + 1)
          = s.slice (i + 1) last ++ c :: s.source.drop (last + 1) := by
        rw [← htake, ← drop_eq_cons hlast, ← hdrop, List.takeWhile_append_dropWhile]
      have hname : c ∉ s.slice (i + 1) last := by
        intro hmem
        rw [← htake] at hmem
        simpa using List.mem_takeWhile_imp hmem
      have hlength : (s.slice (i + 1) last).length = last - (i + 1) := by
        rw [slice, List.length_take, List.length_drop]
        omega
      rw [hsplit, terminator?_of_isQuote hquote hname]
      simp only [ite_run, pure_run]
      split
      · rfl
      · rw [Option.map_some, hlength]
        congr 5
        omega
  · next hquote =>
    rw [Heredoc.terminator?, if_neg hquote, ← drop_eq_cons hc]
    simp only [ite_run, bind_run, scanWhile_run, andThen_ok, pure_run, slice_takeWhile]
    split_ifs <;> grind

/-- A heredoc is announced where the reader sees its terminator and one may start. -/
private theorem announceAt_run (indented : Bool) (i : Nat) (s : Scanner) :
    announceAt indented i s = match Heredoc.terminator? indented (s.source.drop i) with
      | some (name, n) =>
        if s.valueExpected ∨ s.afterSpace then
          some (.ok true, { s with heredocs := s.heredocs ++ [⟨name, indented⟩], pos := i + n })
        else some (.ok false, s)
      | none => some (.ok false, s) := by
  rw [announceAt, bind_run, get_run, andThen_ok, ite_run]
  cases hc : s.source[i]? with
  | none =>
    have hend := List.getElem?_eq_none_iff.mp hc
    rw [if_neg (Nat.not_lt_of_ge hend), List.drop_eq_nil_of_le hend]
    rfl
  | some c =>
    have hlt : i < s.source.length := (List.getElem?_eq_some_iff.mp hc).1
    rw [if_pos hlt, bind_run, heredocTerminator?_run indented hc, andThen_ok]
    cases Heredoc.terminator? indented (s.source.drop i) with
    | none => rfl
    | some found =>
      simp only [Option.map_some, ite_run, bind_run, modify_run, andThen_ok, goTo_run, pure_run]

/-- A heredoc may be indented if a tilde or a dash comes before its terminator. -/
theorem tryHeredoc_run (s : Scanner) :
    tryHeredoc s = match Heredoc.opening? (s.source.drop (s.pos + 2)) with
      | some (heredoc, n) =>
        if s.valueExpected ∨ s.afterSpace then
          some (.ok true, { s with heredocs := s.heredocs ++ [heredoc], pos := s.pos + (n + 2) })
        else some (.ok false, s)
      | none => some (.ok false, s) := by
  rw [tryHeredoc, bind_run, get_run, andThen_ok, ite_run]
  cases hc : s.source[s.pos + 2]? with
  | none =>
    have hend := List.getElem?_eq_none_iff.mp hc
    rw [if_neg (Nat.not_lt_of_ge hend), announceAt_run, List.drop_eq_nil_of_le hend]
    rfl
  | some c =>
    have hlt : s.pos + 2 < s.source.length := (List.getElem?_eq_some_iff.mp hc).1
    rw [if_pos hlt, bind_run, charAt_run hc, andThen_ok, ite_run, announceAt_run, announceAt_run,
      drop_eq_cons hc, Heredoc.opening?]
    -- With a sign in front the terminator stands one character further on.
    split
    · cases Heredoc.terminator? true (s.source.drop (s.pos + 2 + 1)) with
      | none => rfl
      | some found =>
        have hlast : s.pos + 2 + 1 + found.2 = s.pos + (found.2 + 1 + 2) := by omega
        simp only [Option.map_some, hlast]
    · cases Heredoc.terminator? false (c :: s.source.drop (s.pos + 2 + 1)) with
      | none => rfl
      | some found =>
        have hlast : s.pos + 2 + found.2 = s.pos + (found.2 + 2) := by omega
        simp only [Option.map_some, hlast]

end Scanning

end ScopeTags.Source
