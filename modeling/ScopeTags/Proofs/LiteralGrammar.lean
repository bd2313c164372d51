import ScopeTags.Proofs.LookingAhead

/-!
# The grammar of literals

The inside of a literal and the code of an interpolation are two grammars that refer to each other.
A literal is passed over with a stack of frames, and an item of either grammar leaves the stack as
it was: whatever it opens, it closes.  So the text up to the delimiter that closes a literal is
read with the frame of the literal on top, and that delimiter takes the frame away.  Where there is
no such delimiter the frame stays to the end of the text, which is reported.

The first character of an item tells which item it is, so that the grammars can be followed from the
left.

## Key results

- `LiteralBody.crosses`, `InterpolationBody.crosses`: a text of either grammar leaves the stack
- `settles`: every text has such a text up to a delimiter, or a frame that stays open
- `Reader.skipLiteral_grammar`: where a literal ends
-/

namespace ScopeTags.Source

namespace Place

/-- The place after reading `cs`, where each newline ends a line. -/
def through (p : Place) (cs : List Char) : Place := cs.foldl past p

theorem through_cons (p : Place) (c : Char) (cs : List Char) :
    p.through (c :: cs) = (p.past c).through cs := rfl

/-- A text may be gone through in two parts. -/
theorem through_append (p : Place) (cs cs' : List Char) :
    p.through (cs ++ cs') = (p.through cs).through cs' := List.foldl_append

/-- Every newline on the way ends a line. -/
theorem line_through (p : Place) (cs : List Char) :
    (p.through cs).line = p.line + cs.count '\n' := by
  induction cs generalizing p with
  | nil => rfl
  | cons c cs ih =>
    rw [through_cons, ih, List.count_cons, past]
    by_cases hc : c = '\n'
    · simp [hc, Nat.add_comm, Nat.add_left_comm]
    · simp [hc]

end Place

/-! ## The two grammars -/

/-- The delimiters of a literal.  Where there is an opening one, pairs of them are balanced. -/
structure Delimiters where
  close : Char
  opener : Option Char
  interpolates : Bool
  close_ne : close ≠ '\\' ∧ close ≠ '#' ∧ close ≠ '\n'
  opener_ne : ∀ c, opener = some c → c ≠ '\\' ∧ c ≠ '#' ∧ c ≠ '\n' ∧ c ≠ close

namespace Delimiters

/-- The delimiters of a string between two quotes. -/
def quotes (q : Char) (hq : isQuote q = true) : Delimiters where
  close := q
  opener := none
  interpolates := q ≠ '\x27'
  close_ne := ⟨ne_of_isQuote hq (by decide), ne_of_isQuote hq (by decide),
    ne_of_isQuote hq (by decide)⟩
  opener_ne := nofun

/-- The frame of a literal that started on `line`, while `nesting` pairs are open in it. -/
def nested (d : Delimiters) (nesting line : Nat) : Frame :=
  .body d.close d.opener d.interpolates nesting line

/-- The frame of a literal that starts on `line`. -/
def frame (d : Delimiters) (line : Nat) : Frame := d.nested 0 line

/-- A character that is an item by itself, where `next` comes after it. -/
structure Plain (d : Delimiters) (c : Char) (next : Option Char) : Prop where
  ne_escape : c ≠ '\\'
  ne_close : c ≠ d.close
  ne_opener : d.opener ≠ some c
  ne_interpolation : d.interpolates = true → c = '#' → next ≠ some '\x7b'

end Delimiters

mutual

/-- Text inside of a literal, up to the delimiter that closes it. -/
inductive LiteralBody : Delimiters → List Char → Prop where
  | nil {d : Delimiters} : LiteralBody d []
  | escape {d : Delimiters} {b : List Char} (c : Char) (rest : LiteralBody d b) :
      LiteralBody d ('\\' :: c :: b)
  | interpolation {d : Delimiters} {code b : List Char} (interpolates : d.interpolates = true)
      (inside : InterpolationBody code) (rest : LiteralBody d b) :
      LiteralBody d ('#' :: '\x7b' :: (code ++ '\x7d' :: b))
  | pair {d : Delimiters} {o : Char} {inner b : List Char} (opener : d.opener = some o)
      (inside : LiteralBody d inner) (rest : LiteralBody d b) :
      LiteralBody d (o :: (inner ++ d.close :: b))
  | plain {d : Delimiters} {c : Char} {b : List Char} (plain : d.Plain c (b ++ [d.close]).head?)
      (rest : LiteralBody d b) : LiteralBody d (c :: b)

/-- Code inside of an interpolation, up to the brace that closes it. -/
inductive InterpolationBody : List Char → Prop where
  | nil : InterpolationBody []
  | string {q : Char} {b code : List Char} (quote : isQuote q = true)
      (inside : LiteralBody (.quotes q quote) b) (rest : InterpolationBody code) :
      InterpolationBody (q :: (b ++ q :: code))
  | braces {inner code : List Char} (inside : InterpolationBody inner)
      (rest : InterpolationBody code) :
      InterpolationBody ('\x7b' :: (inner ++ '\x7d' :: code))
  | plain {c : Char} {code : List Char} (ne_quote : isQuote c = false) (ne_open : c ≠ '\x7b')
      (ne_close : c ≠ '\x7d') (rest : InterpolationBody code) : InterpolationBody (c :: code)

end

/-! ## One character -/

section Literal

variable (d : Delimiters) (nesting start : Nat) (frames : List Frame) (p : Place)

/-- An opening delimiter inside opens one more pair. -/
private theorem skip_opener {o : Char} (h : d.opener = some o) (cs : List Char) :
    skipFrames (d.nested nesting start :: frames) p (o :: cs) =
      skipFrames (d.nested (nesting + 1) start :: frames) (p.past o) cs := by
  obtain ⟨hescape, hhash, hnewline, -⟩ := d.opener_ne o h
  simp [skipFrames, Delimiters.nested, Frame.read, h, hescape, hhash, hnewline]

/-- An opening delimiter does not close. -/
private theorem Delimiters.opener_ne_close : d.opener ≠ some d.close :=
  fun h => (d.opener_ne _ h).2.2.2 rfl

/-- The closing delimiter takes the frame away where no pair is open. -/
private theorem skip_close (cs : List Char) :
    skipFrames (d.nested 0 start :: frames) p (d.close :: cs) =
      skipFrames frames (p.past d.close) cs := by
  obtain ⟨hescape, hhash, hnewline⟩ := d.close_ne
  simp [skipFrames, Delimiters.nested, Frame.read, hescape, hhash, hnewline, d.opener_ne_close]

/-- A closing delimiter within pairs closes the innermost pair. -/
private theorem skip_close_nested (cs : List Char) :
    skipFrames (d.nested (nesting + 1) start :: frames) p (d.close :: cs) =
      skipFrames (d.nested nesting start :: frames) (p.past d.close) cs := by
  obtain ⟨hescape, hhash, hnewline⟩ := d.close_ne
  simp [skipFrames, Delimiters.nested, Frame.read, hescape, hhash, hnewline, d.opener_ne_close]

/-- A hash sign and a brace put the frame of an interpolation on top, with the line on which they
    stand. -/
private theorem skip_hash_brace (h : d.interpolates = true) (cs : List Char) :
    skipFrames (d.nested nesting start :: frames) p ('#' :: '\x7b' :: cs) =
      skipFrames (.interpolation 0 p.line :: d.nested nesting start :: frames)
        ((p.past '#').past '\x7b') cs := by
  simp [skipFrames, Delimiters.nested, Frame.read, h]

end Literal

section Interpolation

variable (depth start : Nat) (frames : List Frame) (p : Place) (cs : List Char)

/-- In code a quote puts the frame of a string on top. -/
private theorem skip_quote {q : Char} (hq : isQuote q = true) :
    skipFrames (.interpolation depth start :: frames) p (q :: cs) =
      skipFrames ((Delimiters.quotes q hq).nested 0 p.line :: .interpolation depth start :: frames)
        (p.past q) cs := by
  simp [skipFrames, Frame.read, hq, Frame.string, Delimiters.nested, Delimiters.quotes]

/-- A brace in code is counted. -/
private theorem skip_openBrace :
    skipFrames (.interpolation depth start :: frames) p ('\x7b' :: cs) =
      skipFrames (.interpolation (depth + 1) start :: frames) (p.past '\x7b') cs := by
  simp [skipFrames, Frame.read, isQuote]

/-- The closing brace takes the frame away where no other is open. -/
private theorem skip_closeBrace :
    skipFrames (.interpolation 0 start :: frames) p ('\x7d' :: cs) =
      skipFrames frames (p.past '\x7d') cs := by
  simp [skipFrames, Frame.read, isQuote]

/-- A closing brace within braces closes the innermost ones. -/
private theorem skip_closeBrace_nested :
    skipFrames (.interpolation (depth + 1) start :: frames) p ('\x7d' :: cs) =
      skipFrames (.interpolation depth start :: frames) (p.past '\x7d') cs := by
  simp [skipFrames, Frame.read, isQuote]

end Interpolation

/-! ## One item -/

/-- Reading `x` where `cs` comes after it leaves the innermost frame as it is, whatever the frames
    around it. -/
def Crosses (frame : Nat → Nat → Frame) (x cs : List Char) : Prop :=
  ∀ nesting start frames p, skipFrames (frame nesting start :: frames) p (x ++ cs) =
    skipFrames (frame nesting start :: frames) (p.through x) cs

/-- Reading nothing leaves the frames as they are. -/
theorem Crosses.nil (frame : Nat → Nat → Frame) (cs : List Char) : Crosses frame [] cs :=
  fun _ _ _ _ => rfl

/-- Two texts that leave them do so one after the other. -/
theorem Crosses.append {frame : Nat → Nat → Frame} {x y cs : List Char}
    (hx : Crosses frame x (y ++ cs)) (hy : Crosses frame y cs) : Crosses frame (x ++ y) cs := by
  intro nesting start frames p
  rw [List.append_assoc, hx, hy, Place.through_append]

section Items

variable (d : Delimiters) (cs : List Char)

/-- A backslash and the character after it are an item, whatever that is. -/
private theorem crosses_escape (c : Char) : Crosses d.nested ['\\', c] cs := by
  intro nesting start frames p
  simp [skipFrames, Delimiters.nested, Frame.read, Place.through]

variable {d} in
/-- A plain character is an item. -/
private theorem crosses_plain {c : Char} {cs : List Char} (h : d.Plain c cs.head?) :
    Crosses d.nested [c] cs := by
  intro nesting start frames p
  have hinterpolation : ¬(d.interpolates = true ∧ c = '#' ∧ cs.head? = some '\x7b') :=
    fun ⟨hon, hc, hnext⟩ => h.ne_interpolation hon hc hnext
  simp [skipFrames, Delimiters.nested, Frame.read, Place.through, h.ne_escape, h.ne_close,
    h.ne_opener, hinterpolation]

variable {d} in
/-- So is a pair of delimiters with a text between them that leaves the frames. -/
private theorem crosses_pair {o : Char} {inner : List Char} (ho : d.opener = some o)
    (hinner : ∀ rest, Crosses d.nested inner (d.close :: rest)) :
    Crosses d.nested (o :: (inner ++ [d.close])) cs := by
  intro nesting start frames p
  -- The opener raises the nesting by one, the text keeps it, and the closing one lowers it again.
  rw [List.cons_append, List.append_assoc, List.singleton_append, skip_opener _ _ _ _ _ ho,
    hinner cs, skip_close_nested, Place.through_cons, Place.through_append]
  rfl

variable {d} in
/-- An interpolation is an item if its code leaves the frames. -/
private theorem crosses_interpolation {code : List Char} (hon : d.interpolates = true)
    (hcode : ∀ rest, Crosses .interpolation code ('\x7d' :: rest)) :
    Crosses d.nested ('#' :: '\x7b' :: (code ++ ['\x7d'])) cs := by
  intro nesting start frames p
  -- The code is read with its own frame on top, so the frame of the literal is one of those around
  -- it.
  rw [List.cons_append, List.cons_append, List.append_assoc, List.singleton_append,
    skip_hash_brace _ _ _ _ _ hon, hcode cs, skip_closeBrace, Place.through_cons,
    Place.through_cons, Place.through_append]
  rfl

/-- In code, a string is an item. -/
private theorem crosses_string {q : Char} {b : List Char} (hq : isQuote q = true)
    (hb : ∀ rest, Crosses (Delimiters.quotes q hq).nested b (q :: rest)) :
    Crosses .interpolation (q :: (b ++ [q])) cs := by
  intro depth start frames p
  -- The string has a frame of its own, which its closing quote takes away again.
  rw [List.cons_append, List.append_assoc, List.singleton_append, skip_quote _ _ _ _ _ hq, hb cs,
    Place.through_cons, Place.through_append]
  exact skip_close (.quotes q hq) p.line _ _ cs

/-- In code, a pair of braces is an item. -/
private theorem crosses_braces {inner : List Char}
    (hinner : ∀ rest, Crosses .interpolation inner ('\x7d' :: rest)) :
    Crosses .interpolation ('\x7b' :: (inner ++ ['\x7d'])) cs := by
  intro depth start frames p
  rw [List.cons_append, List.append_assoc, List.singleton_append, skip_openBrace, hinner cs,
    skip_closeBrace_nested, Place.through_cons, Place.through_append]
  rfl

/-- In code, any other character is an item. -/
private theorem crosses_code {c : Char} (hquote : isQuote c = false) (hopen : c ≠ '\x7b')
    (hclose : c ≠ '\x7d') : Crosses .interpolation [c] cs := by
  intro depth start frames p
  simp [skipFrames, Frame.read, Place.through, hquote, hopen, hclose]

end Items

/-! ## Texts of either grammar -/

mutual

/-- A text of the grammar leaves the frames of a literal as they are, where the closing delimiter
    follows. -/
theorem LiteralBody.crosses : ∀ {d : Delimiters} {b : List Char}, LiteralBody d b →
    ∀ rest, Crosses d.nested b (d.close :: rest)
  | _, _, .nil, rest => .nil _ _
  | _, _, .escape c hb, rest => (crosses_escape _ _ c).append (hb.crosses rest)
  | _, _, .interpolation hon hcode hb, rest => by
    simpa using (crosses_interpolation _ hon hcode.crosses).append (hb.crosses rest)
  | _, _, .pair ho hinner hb, rest => by
    simpa using (crosses_pair _ ho hinner.crosses).append (hb.crosses rest)
  | d, _, .plain (b := b) hplain hb, rest =>
    -- Whether a character is plain depends on the next one, which may be the closing delimiter.
    have hnext := head?_append_cons b [] rest
    (crosses_plain (hnext ▸ hplain)).append (hb.crosses rest)
termination_by _ b => b.length

/-- Code of the grammar leaves the frames where the closing brace follows. -/
theorem InterpolationBody.crosses : ∀ {code : List Char}, InterpolationBody code →
    ∀ rest, Crosses .interpolation code ('\x7d' :: rest)
  | _, .nil, rest => .nil _ _
  | _, .string hq hb hcode, rest => by
    simpa using (crosses_string _ hq hb.crosses).append (hcode.crosses rest)
  | _, .braces hinner hcode, rest => by
    simpa using (crosses_braces _ hinner.crosses).append (hcode.crosses rest)
  | _, .plain hquote hopen hclose hcode, rest =>
    (crosses_code _ hquote hopen hclose).append (hcode.crosses rest)
termination_by code => code.length

end

/-! ## Frames that stay open -/

/-- The text ends before the frame does.  What is still open inside of it is reported first. -/
def StaysOpen (frame : Nat → Nat → Frame) (what : Unterminated) (cs : List Char) : Prop :=
  ∀ nesting start frames p, ∃ inner : List Event,
    (∀ event ∈ inner, ∃ line,
      event = .unterminated .literal line ∨ event = .unterminated .interpolation line) ∧
    skipFrames (frame nesting start :: frames) p cs =
      ({ toPlace := p.through cs, rest := [] },
        inner ++ .unterminated what start :: frames.filterMap Frame.report?)

/-- A frame that stays open does so after an item, too. -/
private theorem StaysOpen.cross {frame : Nat → Nat → Frame} {what : Unterminated} {x cs : List Char}
    (h : StaysOpen frame what cs) (hx : Crosses frame x cs) : StaysOpen frame what (x ++ cs) := by
  intro nesting start frames p
  rw [hx, Place.through_append]
  exact h nesting start frames (p.through x)

section StaysOpen

variable {d : Delimiters} {cs : List Char}

/-- At the end of the text a literal is open. -/
private theorem staysOpen_nil (d : Delimiters) : StaysOpen d.nested .literal [] :=
  fun _ _ _ _ => ⟨[], List.forall_mem_nil _, rfl⟩

/-- A backslash at the end has no character to escape, and that is not reported. -/
private theorem staysOpen_backslash (d : Delimiters) : StaysOpen d.nested .literal ['\\'] := by
  refine fun nesting start frames p => ⟨[], List.forall_mem_nil _, ?_⟩
  simp only [skipFrames, Delimiters.nested, Frame.read, if_true]
  rfl

/-- At the end of the text an interpolation is open. -/
private theorem staysOpen_code_nil : StaysOpen .interpolation .interpolation [] :=
  fun _ _ _ _ => ⟨[], List.forall_mem_nil _, rfl⟩

/-- A pair that stays open keeps its literal open. -/
theorem StaysOpen.opener {o : Char} (ho : d.opener = some o)
    (h : StaysOpen d.nested .literal cs) : StaysOpen d.nested .literal (o :: cs) := by
  intro nesting start frames p
  rw [skip_opener _ _ _ _ _ ho]
  exact h (nesting + 1) start frames (p.past o)

/-- A brace that stays open keeps its interpolation open. -/
private theorem StaysOpen.openBrace (h : StaysOpen .interpolation .interpolation cs) :
    StaysOpen .interpolation .interpolation ('\x7b' :: cs) := by
  intro depth start frames p
  rw [skip_openBrace]
  exact h (depth + 1) start frames (p.past '\x7b')

/-- An interpolation that stays open keeps the literal around it open. -/
private theorem StaysOpen.hash_brace (hon : d.interpolates = true)
    (h : StaysOpen .interpolation .interpolation cs) :
    StaysOpen d.nested .literal ('#' :: '\x7b' :: cs) := by
  intro nesting start frames p
  obtain ⟨inner, hinner, hskip⟩ :=
    h 0 p.line (d.nested nesting start :: frames) ((p.past '#').past '\x7b')
  -- The interpolation is reported after what is open in it and before the literal.
  refine ⟨inner ++ [.unterminated .interpolation p.line], ?_, ?_⟩
  · intro event hevent
    rcases List.mem_append.mp hevent with hevent | hevent
    · exact hinner event hevent
    · exact ⟨p.line, .inr (List.mem_singleton.mp hevent)⟩
  · rw [skip_hash_brace _ _ _ _ _ hon, hskip, List.append_assoc]
    rfl

/-- A string that stays open keeps the interpolation around it open. -/
theorem StaysOpen.quote {q : Char} (hq : isQuote q = true)
    (h : StaysOpen (Delimiters.quotes q hq).nested .literal cs) :
    StaysOpen .interpolation .interpolation (q :: cs) := by
  intro depth start frames p
  obtain ⟨inner, hinner, hskip⟩ := h 0 p.line (.interpolation depth start :: frames) (p.past q)
  refine ⟨inner ++ [.unterminated .literal p.line], ?_, ?_⟩
  · intro event hevent
    rcases List.mem_append.mp hevent with hevent | hevent
    · exact hinner event hevent
    · exact ⟨p.line, .inl (List.mem_singleton.mp hevent)⟩
  · rw [skip_quote _ _ _ _ _ hq, hskip, List.append_assoc]
    rfl

end StaysOpen

/-! ## Closed or open -/

/-- The text goes on in the grammar up to the character that closes the frame, or the frame stays
    open. -/
def Settles (frame : Nat → Nat → Frame) (what : Unterminated) (grammar : List Char → Prop)
    (close : Char) (cs : List Char) : Prop :=
  (∃ b rest, grammar b ∧ cs = b ++ close :: rest) ∨ StaysOpen frame what cs

/-- An item goes in front of what is settled after it. -/
private theorem Settles.cross {frame : Nat → Nat → Frame} {what : Unterminated}
    {grammar : List Char → Prop} {close : Char} {x cs : List Char}
    (h : Settles frame what grammar close cs) (hx : Crosses frame x cs)
    (hgrammar : ∀ b rest, cs = b ++ close :: rest → grammar b → grammar (x ++ b)) :
    Settles frame what grammar close (x ++ cs) := by
  rcases h with ⟨b, rest, hb, hcs⟩ | h
  · exact .inl ⟨x ++ b, rest, hgrammar b rest hcs hb, by rw [hcs, List.append_assoc]⟩
  · exact .inr (h.cross hx)

/-- `Settles` for the inside of a literal. -/
def Delimiters.Settles (d : Delimiters) : List Char → Prop :=
  Source.Settles d.nested .literal (LiteralBody d) d.close

/-- `Settles` for the code of an interpolation. -/
def CodeSettles : List Char → Prop :=
  Settles .interpolation .interpolation InterpolationBody '\x7d'

/-- One more character in front, if all shorter texts are settled. -/
private theorem Delimiters.settles_cons {d : Delimiters} {cs : List Char} (c : Char)
    (ih : ∀ cs', cs'.length ≤ cs.length → d.Settles cs')
    (ihcode : ∀ cs', cs'.length ≤ cs.length → CodeSettles cs') : d.Settles (c :: cs) := by
  -- The first character tells which item comes next, or that the literal ends.
  by_cases hescape : c = '\\'
  · subst hescape
    cases cs with
    | nil => exact .inr (staysOpen_backslash d)
    | cons c cs =>
      exact (ih cs (Nat.le_succ _)).cross (crosses_escape d cs c) fun _ _ _ hb => .escape c hb
  by_cases hhash : d.interpolates = true ∧ c = '#' ∧ cs.head? = some '\x7b'
  · obtain ⟨hon, rfl, hhead⟩ := hhash
    obtain ⟨cs, rfl⟩ := List.head?_eq_some_iff.mp hhead
    -- The code closes, and the literal goes on after it, or neither does.
    rcases ihcode cs (Nat.le_succ _) with ⟨code, rest, hcode, rfl⟩ | hopen
    · rw [List.append_cons]
      exact (ih rest (by simp; omega)).cross (crosses_interpolation rest hon hcode.crosses)
        fun b _ _ hb => by simpa using LiteralBody.interpolation hon hcode hb
    · exact .inr (hopen.hash_brace hon)
  by_cases hopener : d.opener = some c
  · rcases ih cs (Nat.le_refl _) with ⟨inner, rest, hinner, rfl⟩ | hopen
    · rw [List.append_cons]
      exact (ih rest (by simp; omega)).cross (crosses_pair rest hopener hinner.crosses)
        fun b _ _ hb => by simpa using LiteralBody.pair hopener hinner hb
    · exact .inr (hopen.opener hopener)
  by_cases hclose : c = d.close
  · exact .inl ⟨[], cs, .nil, by rw [hclose]; rfl⟩
  -- None of the other items starts here, so the character is plain.
  have hplain : d.Plain c cs.head? :=
    ⟨hescape, hclose, hopener, fun hon hc hnext => hhash ⟨hon, hc, hnext⟩⟩
  refine (ih cs (Nat.le_refl _)).cross (crosses_plain hplain) fun b rest hcs hb => ?_
  rw [hcs, head?_append_cons b [] rest] at hplain
  exact .plain hplain hb

/-- One more character of code in front. -/
private theorem codeSettles_cons {cs : List Char} (c : Char)
    (ih : ∀ d : Delimiters, ∀ cs', cs'.length ≤ cs.length → d.Settles cs')
    (ihcode : ∀ cs', cs'.length ≤ cs.length → CodeSettles cs') : CodeSettles (c :: cs) := by
  -- In code, too, the first character tells what comes next.
  by_cases hquote : isQuote c = true
  -- The string closes, and the code goes on after it, or neither does.
  · rcases ih (.quotes c hquote) cs (Nat.le_refl _) with ⟨b, rest, hb, rfl⟩ | hopen
    · rw [List.append_cons]
      exact (ihcode rest (by simp; omega)).cross (crosses_string rest hquote hb.crosses)
        fun code _ _ hcode => by simpa using InterpolationBody.string hquote hb hcode
    · exact .inr (hopen.quote hquote)
  by_cases hopenBrace : c = '\x7b'
  · subst hopenBrace
    rcases ihcode cs (Nat.le_refl _) with ⟨inner, rest, hinner, rfl⟩ | hopen
    · rw [List.append_cons]
      exact (ihcode rest (by simp; omega)).cross (crosses_braces rest hinner.crosses)
        fun code _ _ hcode => by simpa using InterpolationBody.braces hinner hcode
    · exact .inr hopen.openBrace
  by_cases hclose : c = '\x7d'
  · exact .inl ⟨[], cs, .nil, by rw [hclose]; rfl⟩
  have hquote : isQuote c = false := Bool.eq_false_iff.mpr hquote
  exact (ihcode cs (Nat.le_refl _)).cross (crosses_code cs hquote hopenBrace hclose)
    fun _ _ _ hcode => .plain hquote hopenBrace hclose hcode

/-- Every text is settled, as the inside of any literal and as code. -/
theorem settles (cs : List Char) : (∀ d : Delimiters, d.Settles cs) ∧ CodeSettles cs := by
  -- Each item leaves a shorter text, but what is inside of it has to be read before what follows.
  induction hn : cs.length using Nat.strongRecOn generalizing cs with
  | _ n ih =>
    cases cs with
    | nil => exact ⟨fun d => .inr (staysOpen_nil d), .inr staysOpen_code_nil⟩
    | cons c cs =>
      have hshorter : ∀ cs', cs'.length ≤ cs.length →
          (∀ d : Delimiters, d.Settles cs') ∧ CodeSettles cs' :=
        fun cs' hle => ih cs'.length (by rw [← hn]; exact Nat.lt_succ_of_le hle) cs' rfl
      have hcode : ∀ cs', cs'.length ≤ cs.length → CodeSettles cs' :=
        fun cs' hle => (hshorter cs' hle).2
      exact ⟨fun d => d.settles_cons c (fun cs' hle => (hshorter cs' hle).1 d) hcode,
        codeSettles_cons c (fun d cs' hle => (hshorter cs' hle).1 d) hcode⟩

/-! ## Where a literal ends -/

namespace Reader

variable {d : Delimiters} {r : Reader} {n : Nat}

/-- A literal is passed over as its frame is. -/
private theorem skipLiteral_eq_of_skip {last : Cursor} {found : List Event}
    (h : skipFrames [d.nested 0 r.line] (r.toCursor.hop n).toPlace (r.toCursor.hop n).rest =
      (last, found)) : r.skipLiteral n d.frame = (found, (r.moveTo last).markValue) := by
  rw [skipLiteral, Delimiters.frame]
  simp only [h]

/-- A literal ends at the delimiter that follows a text of the grammar. -/
private theorem skipLiteral_of_body {b rest : List Char} (hb : LiteralBody d b)
    (h : (r.toCursor.hop n).rest = b ++ d.close :: rest) :
    let last : Cursor := ⟨(r.toCursor.hop n).through (b ++ [d.close]), rest⟩
    r.skipLiteral n d.frame = ([], (r.moveTo last).markValue) := by
  apply skipLiteral_eq_of_skip
  rw [h, hb.crosses rest, skip_close, skipFrames, Place.through_append]
  rfl

/-- A literal ends in one place: what is left of the text does not depend on how it was split. -/
private theorem body_unique {b b' rest rest' cs : List Char} (hb : LiteralBody d b)
    (hb' : LiteralBody d b') (h : cs = b ++ d.close :: rest) (h' : cs = b' ++ d.close :: rest') :
    b' = b := by
  -- Both ways to split the text are passed over by one and the same reader.
  have hskip := skipLiteral_of_body (r := { rest := cs }) (n := 0) hb h
  have hskip' := skipLiteral_of_body (r := { rest := cs }) (n := 0) hb' h'
  have hrest : rest' = rest := congrArg (·.2.rest) (hskip'.symm.trans hskip)
  rw [h, hrest] at h'
  exact (List.append_cancel_right h').symm

/-- Whatever a reader has read, a literal whose opening delimiter takes `n` characters ends at the
    first place where its closing delimiter comes after a text of the grammar.  There is one such
    text at most, and then nothing is reported and the lines in it are counted.  If there is none,
    the literal goes on to the end of the text.  The last report is then about the literal and names
    the line on which it starts, and those before it are about what is open in it. -/
theorem skipLiteral_grammar (d : Delimiters) (r : Reader) (n : Nat) :
    let k : Cursor := r.toCursor.hop n
    (∀ b rest, LiteralBody d b → k.rest = b ++ d.close :: rest →
      (∀ b' rest', LiteralBody d b' → k.rest = b' ++ d.close :: rest' → b' = b) ∧
      ∃ last : Cursor, r.skipLiteral n d.frame = ([], (r.moveTo last).markValue) ∧
        last.toPlace = k.through (b ++ [d.close]) ∧ last.rest = rest ∧
        last.line = k.line + b.count '\n') ∧
    ((¬∃ b rest, LiteralBody d b ∧ k.rest = b ++ d.close :: rest) →
      ∃ (inner : List Event) (last : Cursor),
        r.skipLiteral n d.frame =
          (inner ++ [.unterminated .literal k.line], (r.moveTo last).markValue) ∧
        (∀ event ∈ inner, ∃ line,
          event = .unterminated .literal line ∨ event = .unterminated .interpolation line) ∧
        last.toPlace = k.through k.rest ∧ last.rest = [] ∧
        last.line = k.line + k.rest.count '\n') := by
  intro k
  refine ⟨fun b rest hb hrest => ⟨fun b' rest' hb' hrest' => body_unique hb hb' hrest hrest', ?_⟩,
    fun hnone => ?_⟩
  -- The closing delimiter is no newline, so the lines are those of the text before it.
  · refine ⟨_, skipLiteral_of_body hb hrest, rfl, rfl, ?_⟩
    have hclose : [d.close].count '\n' = 0 := List.count_eq_zero.mpr (by simp [d.close_ne.2.2.symm])
    rw [Place.line_through, List.count_append, hclose, Nat.add_zero]
  · rcases (settles k.rest).1 d with ⟨b, rest, hb, hrest⟩ | hopen
    · exact absurd ⟨b, rest, hb, hrest⟩ hnone
    · obtain ⟨inner, hinner, hskip⟩ := hopen 0 r.line [] k.toPlace
      exact ⟨inner, _, skipLiteral_eq_of_skip hskip, hinner, rfl, rfl, Place.line_through _ _⟩

/-- A string that holds an interpolation with a string in it, and an escaped quote; the brace and
    the quotes inside do not end it.  Without its last quote the same string has no end. -/
theorem skipLiteral_grammar_interpolated :
    let d : Delimiters := .quotes '"' rfl
    let b : List Char := ['#', '\x7b', '"', '\x7d', '"', '\x7d', '\n', '\\', '"']
    let r : Reader := .start ('"' :: (b ++ ['"', ' ', 'x']))
    let r' : Reader := .start ['"', 'a']
    LiteralBody d b ∧
      (∃ last : Cursor, r.skipLiteral 1 d.frame = ([], (r.moveTo last).markValue) ∧
        last.rest = [' ', 'x'] ∧ last.line = 2) ∧
      ∃ (inner : List Event) (last : Cursor), r'.skipLiteral 1 d.frame =
        (inner ++ [.unterminated .literal 1], (r'.moveTo last).markValue) := by
  intro d b r r'
  have hstring : LiteralBody d ['\x7d'] :=
    .plain ⟨by decide, by decide, by decide, by decide⟩ .nil
  have hcode : InterpolationBody ['"', '\x7d', '"'] := .string rfl hstring .nil
  have hplain : d.Plain '\n' (some '\\') := ⟨by decide, by decide, by decide, by decide⟩
  have hb : LiteralBody d b := .interpolation rfl hcode (.plain hplain (.escape '"' .nil))
  obtain ⟨-, last, hskip, -, hrest, hline⟩ :=
    (skipLiteral_grammar d r 1).1 b [' ', 'x'] hb rfl
  refine ⟨hb, ⟨last, hskip, hrest, hline⟩, ?_⟩
  obtain ⟨inner, last', hskip', -⟩ := (skipLiteral_grammar d r' 1).2 (by
    rintro ⟨b', rest, -, hsplit⟩
    have hmem : '"' ∈ ['a'] := by
      rw [show ['a'] = b' ++ '"' :: rest from hsplit]
      simp
    exact absurd hmem (by decide))
  exact ⟨inner, last', hskip'⟩

end Reader

end ScopeTags.Source
