import ScopeTags.Proofs.CarriageReturns

/-!
# Reading a text with carriage returns

`returned` puts a place, a cursor or a reader into the text with a carriage return in front of each
newline, with the same line, the same column and the same memory.  A piece of the text that has no
newline in it is read there as it is in the text without the returns.  A literal, a heredoc or a
document of several lines takes the returns along with the lines.

## Key results

- `skipFrames_returned`, `Cursor.linesThrough_returned`: literals and lines
- `Reader.readWord_returned`, `Reader.readPunctuation_returned`: one piece of the text
- `Reader.readNewline_returned`: the end of a line, from the newline after the return
-/

namespace ScopeTags.Source

/-! ## Places -/

namespace Place

/-- The place in the text with carriage returns. -/
def returned (p : Place) : Place :=
  { p with before := (withReturns p.before.reverse).reverse }

variable (p : Place)

/-- Characters of one line bring no return along. -/
private theorem along_returned {cs : List Char} (h : '\n' ∉ cs) :
    p.returned.along cs = (p.along cs).returned := by
  simp [along, returned, withReturns_append, withReturns_of_not_mem h]

/-- A character that ends no line brings no return along. -/
private theorem past_returned {c : Char} (hc : c ≠ '\n') :
    p.returned.past c = (p.past c).returned := by
  simp [past, hc, returned, withReturns_append, withReturns_cons hc]

/-- A newline brings one, and it counts for no column, since the line is over. -/
private theorem past_return_newline :
    (p.returned.past '\r').past '\n' = (p.past '\n').returned := by
  simp [past, returned, withReturns_append]

private theorem along_append (cs ds : List Char) : p.along (cs ++ ds) = (p.along cs).along ds := by
  simp [along, Nat.add_assoc]

/-- The last character read is the same. -/
private theorem head?_before_returned : p.returned.before.head? = p.before.head? := by
  rcases p with ⟨before, line, column⟩
  cases before using newline_cases with
  | nil => rfl
  -- Before a newline stands its return, but the newline is still the last one.
  | newline before => simp [returned, withReturns_append]
  | cons c before hc => simp [returned, withReturns_append, withReturns_cons hc]

/-- Whether the last two characters are colons. -/
private theorem isPrefixOf_colons_returned :
    [':', ':'].isPrefixOf p.returned.before = [':', ':'].isPrefixOf p.before := by
  rcases p with ⟨before, line, column⟩
  cases before using newline_cases with
  | nil => rfl
  | newline before => simp [returned, withReturns_append, List.isPrefixOf]
  | cons c before hc =>
    cases before using newline_cases with
    | nil => simp [returned, withReturns_cons hc]
    | newline before =>
      simp [returned, withReturns_append, withReturns_cons hc, List.isPrefixOf]
    | cons d before hd =>
      simp [returned, withReturns_append, withReturns_cons hc, withReturns_cons hd, List.isPrefixOf]

end Place

/-! ## Lines -/

namespace Cursor

/-- The cursor in the text with carriage returns. -/
def returned (k : Cursor) : Cursor :=
  { toPlace := k.toPlace.returned, rest := withReturns k.rest }

variable (k : Cursor)

variable {k} in
/-- A hop within a line is the same hop. -/
theorem hop_returned {n : Nat} (h : SameLine n k.rest) :
    k.returned.hop n = (k.hop n).returned := by
  simp only [hop, returned, take_withReturns h, drop_withReturns h, k.along_returned h]

/-- Where no newline is left, the next line is the end of the text. -/
private theorem nextLine_of_not_mem (h : '\n' ∉ k.rest) :
    k.nextLine = { toPlace := k.along k.rest, rest := [] } := by
  have hall : ∀ c ∈ k.rest, decide (c ≠ '\n') = true := fun c hc =>
    decide_eq_true fun heq => h (heq ▸ hc)
  rw [nextLine, List.takeWhile_eq_self_iff.mpr hall, List.dropWhile_eq_nil_iff.mpr hall]

section Newline

variable {k} {line rest : List Char} (h : k.rest = line ++ '\n' :: rest) (hline : '\n' ∉ line)

include h hline

/-- The rest of a line is what stands in front of the newline. -/
private theorem takeWhile_line : k.rest.takeWhile (· ≠ '\n') = line := by
  rw [h, takeWhile_append_stop _ _ (by decide), List.takeWhile_eq_self_iff]
  intro c hc
  exact decide_eq_true fun heq => hline (heq ▸ hc)

/-- The next line starts after the newline. -/
private theorem nextLine_of_line : k.nextLine = { toPlace := (k.along line).past '\n', rest } := by
  have hdrop : k.rest.dropWhile (· ≠ '\n') = '\n' :: rest := by
    have hsplit := List.takeWhile_append_dropWhile (p := fun c => decide (c ≠ '\n')) (l := k.rest)
    rw [takeWhile_line h hline] at hsplit
    exact List.append_cancel_left (hsplit.trans h)
  rw [nextLine, hdrop, takeWhile_line h hline]

/-- With returns, the line has one more character in front of the newline. -/
private theorem rest_returned_line :
    k.returned.rest = (line ++ ['\r']) ++ '\n' :: withReturns rest := by
  simp [returned, h, withReturns_append, withReturns_of_not_mem hline]

end Newline

/-- What is left of the line has no returns at its end, be there one of its own or not. -/
private theorem currentLine_returned : k.returned.currentLine = k.currentLine := by
  by_cases hmem : '\n' ∈ k.rest
  · obtain ⟨line, rest, hrest, hline⟩ := List.eq_append_cons_of_mem hmem
    have hreturned := rest_returned_line hrest hline
    rw [currentLine, currentLine, takeWhile_line hrest hline,
      takeWhile_line hreturned (by simpa using hline)]
    -- The return that was put in is trimmed with those that were there.
    simp [Text.trimEnd]
  · have hreturned : k.returned.rest = k.rest := withReturns_of_not_mem hmem
    rw [currentLine, currentLine, hreturned]

/-- The next line starts at the same character. -/
private theorem nextLine_returned : k.returned.nextLine = k.nextLine.returned := by
  by_cases hmem : '\n' ∈ k.rest
  · obtain ⟨line, rest, hrest, hline⟩ := List.eq_append_cons_of_mem hmem
    have hreturned := rest_returned_line hrest hline
    rw [nextLine_of_line hrest hline, nextLine_of_line hreturned (by simpa using hline)]
    -- The line of the text with returns is the line, the return and the newline.
    simp only [returned, ← Place.past_return_newline, Place.along_append,
      k.along_returned hline]
    rfl
  · have hreturned : k.returned.rest = k.rest := withReturns_of_not_mem hmem
    rw [nextLine_of_not_mem k hmem, nextLine_of_not_mem k.returned (by rwa [hreturned]), hreturned]
    simp only [returned, k.along_returned hmem]
    rfl

/-- From the newline that follows the return, the next line is the same. -/
private theorem nextLine_return {cs : List Char} (hk : k.rest = '\n' :: cs) :
    (k.returned.hop 1).nextLine = k.nextLine.returned := by
  have hline : k.rest = [] ++ '\n' :: cs := hk
  have hreturned : (k.returned.hop 1).rest = [] ++ '\n' :: withReturns cs := by
    simp [returned, hk]
  rw [nextLine_of_line hline (by simp), nextLine_of_line hreturned (by simp)]
  simp only [returned, ← Place.past_return_newline]
  simp [hop, hk, Place.along, Place.past, Place.returned]

/-- Lines end with or without a return, so the same line is found. -/
theorem linesThrough_returned (ends : List Char → Bool) :
    k.returned.linesThrough ends =
      ((k.linesThrough ends).1, (k.linesThrough ends).2.returned) := by
  fun_induction linesThrough ends k with
  | case1 k hnil =>
    rw [linesThrough, dif_pos (by simp [returned, hnil])]
  | case2 k hne hends =>
    rw [linesThrough, dif_neg (by simpa [returned] using hne), currentLine_returned, if_pos hends,
      nextLine_returned]
  | case3 k hne hends ih =>
    rw [linesThrough, dif_neg (by simpa [returned] using hne), currentLine_returned, if_neg hends,
      nextLine_returned, ih]

end Cursor

/-- The bodies of heredocs are the same lines. -/
private theorem skipBodies_returned (heredocs : List Heredoc) (k : Cursor) :
    skipBodies heredocs k.returned =
      ((skipBodies heredocs k).1.returned, (skipBodies heredocs k).2) := by
  induction heredocs generalizing k with
  | nil => rfl
  | cons h heredocs ih =>
    simp only [skipBodies, k.linesThrough_returned, ih]
    rfl

/-- An embedded document is passed over alike in both texts. -/
theorem skipDocument_returned (k : Cursor) :
    skipDocument k.returned = ((skipDocument k).1.returned, (skipDocument k).2) := by
  simp only [skipDocument, k.nextLine_returned, k.nextLine.linesThrough_returned]
  rfl

/-! ## Literals -/

namespace Frame

/-- The frame stays when a carriage return or a newline is read. -/
def Lasts : Frame → Prop
  | single => False
  | body close opener _ _ _ => close ≠ '\r' ∧ opener ≠ some '\r'
  | _ => True

/-- A frame that lasts takes a return as one more character inside of it. -/
private theorem Lasts.read_return {frame : Frame} (h : frame.Lasts) (line : Nat)
    (next : Option Char) : frame.read line '\r' next = [frame] := by
  cases frame with
  | single => exact h.elim
  | body close opener interpolates nesting start => simp [read, h.1.symm, h.2]
  | interpolation depth start => simp [read, isQuote]
  | regex inClass start => simp [read]

/-- A frame that lasts takes a newline and stays. -/
theorem Lasts.read_newline {frame : Frame} (h : frame.Lasts) (line : Nat) (next : Option Char) :
    frame.read line '\n' next = [frame] := by
  cases frame with
  | single => exact h.elim
  | body close opener interpolates nesting start => simp [read]
  | interpolation depth start => simp [read, isQuote]
  | regex inClass start => simp [read]

theorem read_single (line : Nat) (c : Char) (next : Option Char) : single.read line c next = [] :=
  rfl

/-- A frame asks of the next character only whether it is a brace. -/
private theorem read_head?_withReturns (frame : Frame) (line : Nat) (c : Char) (cs : List Char) :
    frame.read line c (withReturns cs).head? = frame.read line c cs.head? := by
  cases frame <;>
    simp only [read, head?_withReturns_eq cs (x := '\x7b') (by decide) (by decide)]

/-- A string lasts over the end of a line, since no quote is a return. -/
theorem string_lasts {q : Char} (hq : isQuote q = true) (line : Nat) : (string q line).Lasts :=
  ⟨ne_of_isQuote hq (by decide), by simp⟩

/-- The frame of a percent literal lasts. -/
theorem percent_lasts {cs : List Char} {type delim : Char} {n : Nat}
    (h : percentOpening? cs = some (type, delim, n)) (line : Nat) :
    (percent type delim line).Lasts := by
  -- No blank is the delimiter of a percent literal.
  have hdelim : delim ≠ '\r' := by
    rintro rfl
    have hblank : Text.isBlank '\r' = true := by decide
    unfold percentOpening? at h
    grind
  unfold percent
  split
  · next close hclose =>
    have hne : close ≠ '\r' := by
      rintro rfl
      unfold closing? at hclose
      split at hclose <;> cases hclose
    exact ⟨hne, by simpa using hdelim⟩
  · exact ⟨hdelim, by simp⟩

/-- Frames of which all stay, but that the innermost one may be a single character. -/
inductive Stacked : List Frame → Prop where
  | lasting {frames : List Frame} (h : ∀ frame ∈ frames, frame.Lasts) : Stacked frames
  | single {frame : Frame} {frames : List Frame} (h : ∀ f ∈ frame :: frames, f.Lasts) :
      Stacked (single :: frame :: frames)

/-- From frames that last, every character leads to frames that are stacked: an escape or the sign
    of an interpolation puts one single character on top. -/
theorem Lasts.read_stacked {frame : Frame} {frames : List Frame}
    (h : ∀ f ∈ frame :: frames, f.Lasts) (line : Nat) (c : Char) (next : Option Char) :
    Stacked (frame.read line c next ++ frames) := by
  obtain ⟨hframe, hframes⟩ := List.forall_mem_cons.mp h
  -- What a character can make of the frames, whatever the innermost one is.
  have hsame : Stacked (frame :: frames) := .lasting h
  have hescaped : Stacked (.single :: frame :: frames) := .single h
  have hcode : Stacked (.single :: .interpolation 0 line :: frame :: frames) :=
    .single (List.forall_mem_cons.mpr ⟨trivial, h⟩)
  have hclosed : Stacked frames := .lasting hframes
  cases frame with
  | single => exact hframe.elim
  | body close opener interpolates nesting start =>
    have hnested : ∀ nesting, Stacked (.body close opener interpolates nesting start :: frames) :=
      fun _ => .lasting (List.forall_mem_cons.mpr ⟨hframe, hframes⟩)
    simp only [read]
    split
    · exact hescaped
    split
    · exact hsame
    split
    · exact hcode
    split
    · exact hnested _
    split
    · split
      · exact hclosed
      · exact hnested _
    · exact hsame
  | interpolation depth start =>
    have hdeeper : ∀ depth, Stacked (.interpolation depth start :: frames) := fun _ =>
      .lasting (List.forall_mem_cons.mpr ⟨trivial, hframes⟩)
    simp only [read]
    split
    · next hquote => exact .lasting (List.forall_mem_cons.mpr ⟨string_lasts hquote line, h⟩)
    split
    · exact hdeeper _
    split
    · split
      · exact hclosed
      · exact hdeeper _
    · exact hsame
  | regex inClass start =>
    have hclass : ∀ inClass, Stacked (.regex inClass start :: frames) := fun _ =>
      .lasting (List.forall_mem_cons.mpr ⟨trivial, hframes⟩)
    simp only [read]
    split
    · exact hescaped
    split
    · exact hcode
    split
    · exact hclass true
    split
    · exact hclass false
    split
    · exact hclosed
    · exact hsame

end Frame

/-- A literal takes the returns along with its newlines. -/
theorem skipFrames_returned {frames : List Frame} (h : Frame.Stacked frames) (p : Place)
    (cs : List Char) :
    skipFrames frames p.returned (withReturns cs) =
      ((skipFrames frames p cs).1.returned, (skipFrames frames p cs).2) := by
  induction cs generalizing frames p with
  | nil => cases frames <;> rfl
  | cons c cs ih =>
    rcases frames with _ | ⟨frame, frames⟩
    · simp only [skipFrames]
      rfl
    by_cases hc : c = '\n'
    · subst hc
      cases h with
      | lasting h =>
        -- Neither the return nor the newline changes the frames.
        have hframe := h frame List.mem_cons_self
        simp only [withReturns_newline, skipFrames, hframe.read_return, hframe.read_newline,
          List.singleton_append, Place.past_return_newline]
        exact ih (.lasting h) _
      | @single around frames h =>
        -- The single character is the return, and the frame around it takes the newline.
        have haround := h around List.mem_cons_self
        simp only [withReturns_newline, skipFrames, Frame.read_single, haround.read_newline,
          List.nil_append, List.singleton_append, Place.past_return_newline]
        exact ih (.lasting h) _
    · have hstacked : Frame.Stacked (frame.read p.line c cs.head? ++ frames) := by
        cases h with
        | lasting h => exact Frame.Lasts.read_stacked h _ _ _
        | single h => exact .lasting h
      simp only [withReturns_cons hc, skipFrames, Frame.read_head?_withReturns,
        Place.past_returned p hc]
      exact ih hstacked _

/-! ## Readers -/

namespace Reader

/-- The reader in the text with carriage returns. -/
def returned (r : Reader) : Reader := r.moveTo r.toCursor.returned

end Reader

/-- The same events, and the reader in the text with carriage returns. -/
def Reading.returned (x : Reading) : Reading := (x.1, x.2.returned)

/-- The two readings branch in the same way. -/
theorem Reading.ite_returned {p : Prop} [Decidable p] {x x' y y' : Reading}
    (hx : p → x' = x.returned) (hy : ¬p → y' = y.returned) :
    (if p then x' else y') = Reading.returned (if p then x else y) := by
  split
  · next hp => exact hx hp
  · next hp => exact hy hp

namespace Reader

open Reading (ite_returned)

variable {r : Reader} {c : Char} {cs : List Char} {n : Nat}

theorem rest_returned (r : Reader) : r.returned.rest = withReturns r.rest := rfl

theorem hop_returned (hr : r.rest = cs) (h : SameLine n cs) :
    r.returned.hop n = (r.hop n).returned := by
  subst hr
  exact congrArg r.moveTo (Cursor.hop_returned h)

/-- What is passed over within a line leaves the reader where it was left without returns. -/
private theorem skipValue_returned (hr : r.rest = cs) (h : SameLine n cs) :
    r.returned.skipValue n = (r.skipValue n).returned := by
  rw [skipValue, hop_returned hr h]
  rfl

private theorem skipDot_returned (hr : r.rest = cs) (h : SameLine n cs) :
    r.returned.skipDot n = (r.skipDot n).returned := by
  rw [skipDot, hop_returned hr h]
  rfl

theorem skipOperator_returned (hr : r.rest = cs) (h : SameLine n cs) :
    r.returned.skipOperator n = (r.skipOperator n).returned := by
  rw [skipOperator, hop_returned hr h]
  rfl

/-- A literal of several lines takes the returns along. -/
private theorem skipLiteral_returned (hr : r.rest = cs) (h : SameLine n cs) {frame : Nat → Frame}
    (hframe : ∀ line, (frame line).Lasts) :
    r.returned.skipLiteral n frame = (r.skipLiteral n frame).returned := by
  subst hr
  have hstacked : Frame.Stacked [frame r.line] := .lasting (by simpa using hframe r.line)
  -- The opening is on one line, and from there on the frames take over.
  have hskip := skipFrames_returned hstacked (r.toCursor.hop n).toPlace (r.toCursor.hop n).rest
  simp only [skipLiteral]
  rw [show r.returned.toCursor.hop n = (r.toCursor.hop n).returned from Cursor.hop_returned h]
  simp only [Cursor.returned]
  rw [show r.returned.line = r.line from rfl, hskip]
  rfl

/-- No flag is a return. -/
private theorem skipFlags_returned (r : Reader) : r.returned.skipFlags = r.skipFlags.returned := by
  have hflags := takeWhile_withReturns r.rest (p := isRegexFlag) (by decide) (by decide)
  rw [skipFlags, rest_returned, hflags]
  exact hop_returned rfl (sameLine_takeWhile (by decide) r.rest)

/-- Whether a space comes just before is the same. -/
private theorem afterSpace_returned (r : Reader) : r.returned.afterSpace = r.afterSpace :=
  congrArg (Option.any isSpace) r.toPlace.head?_before_returned

/-- So a literal may start in both texts or in neither: a return is a blank, too. -/
private theorem operandMayStart_returned (r : Reader) (cs : List Char) :
    r.returned.operandMayStart (withReturns cs).head? = r.operandMayStart cs.head? := by
  unfold operandMayStart
  rw [afterSpace_returned, any_head?_withReturns cs (by decide)]
  rfl

/-- The same endless definitions are closed in both texts. -/
private theorem closeEndless_returned (r : Reader) :
    r.returned.closeEndless = Reading.returned r.closeEndless :=
  ite_returned (fun _ => rfl) fun _ => rfl

/-! ## Punctuation -/

/-- What follows a colon is the same symbol, quoted or not, or no symbol. -/
private theorem readColon_returned (hr : r.rest = ':' :: cs) :
    r.returned.readColon (withReturns cs) = (r.readColon cs).returned := by
  have hoperator := skipOperator_returned (n := 1) hr (sameLine_one (by decide))
  have hname : r.returned.skipValue (operatorLength cs + 1) =
      (r.skipValue (operatorLength cs + 1)).returned :=
    skipValue_returned hr (sameLine_succ.mpr ⟨by decide, sameLine_operatorLength cs⟩)
  have hlength := operatorLength_withReturns cs
  cases cs using newline_cases with
  | nil => exact hoperator
  | newline rest =>
    have hstart : isWordStart '\r' = false ∧ isWordStart '\n' = false := by decide
    rw [withReturns_newline] at hlength
    -- Neither character starts anything, and an operator is looked for with the same result.
    have hrest := ite_returned (p := r.valueExpected = true ∧ 0 < operatorLength ('\n' :: rest))
      (fun _ => hname) fun _ => hoperator
    simpa [readColon, hlength, hstart, returned, moveTo] using hrest
  | cons d rest hd =>
    have htwo : SameLine 2 (':' :: d :: rest) := sameLine_succ.mpr ⟨by decide, sameLine_one hd⟩
    have hsymbol := symbolLength_withReturns (d :: rest)
    rw [withReturns_cons hd] at hlength hsymbol
    simp only [withReturns_cons hd, readColon, hlength, hsymbol]
    refine ite_returned (fun _ => skipDot_returned hr htwo) fun _ => ?_
    refine ite_returned (fun hquote => skipLiteral_returned hr htwo ?_) fun _ => ?_
    · exact Frame.string_lasts (by rcases hquote with rfl | rfl <;> decide)
    refine ite_returned (fun _ => skipValue_returned hr (sameLine_symbolLength _)) fun _ => ?_
    exact ite_returned (fun _ => hname) fun _ => hoperator

/-- A percent sign opens the same literal or is an operator. -/
private theorem readPercent_returned (hr : r.rest = '%' :: cs) :
    r.returned.readPercent (withReturns cs) = (r.readPercent cs).returned := by
  have hoperator := skipOperator_returned (n := 1) hr (sameLine_one (by decide))
  simp only [readPercent, percentOpening?_withReturns, operandMayStart_returned]
  split
  · next type delim n hn =>
    refine ite_returned (fun _ => ?_) fun _ => hoperator
    rw [skipLiteral_returned hr (sameLine_percentOpening? hn) (Frame.percent_lasts hn)]
    simp only [Reading.returned, skipFlags_returned]
    -- The flags of a regular expression come after its closing delimiter.
    split <;> rfl
  · exact hoperator

/-- A slash opens the same regular expression or is an operator. -/
private theorem readSlash_returned (hr : r.rest = '/' :: cs) :
    r.returned.readSlash (withReturns cs) = (r.readSlash cs).returned := by
  have hone : SameLine 1 ('/' :: cs) := sameLine_one (by decide)
  simp only [readSlash, operandMayStart_returned]
  have hregex : ∀ line, (Frame.regex false line).Lasts := fun _ => trivial
  refine ite_returned (fun _ => ?_) fun _ => skipOperator_returned hr hone
  rw [skipLiteral_returned hr hone hregex]
  simp only [Reading.returned, skipFlags_returned]

/-- The same heredoc is announced in both texts. -/
private theorem readLessThan_returned (hr : r.rest = '<' :: cs) :
    r.returned.readLessThan (withReturns cs) = (r.readLessThan cs).returned := by
  have hoperator := skipOperator_returned (n := 1) hr (sameLine_one (by decide))
  cases cs using newline_cases with
  | nil => exact hoperator
  | newline rest => exact hoperator
  | cons d rest hd =>
    rw [withReturns_cons hd]
    -- It takes two signs, and a return is not the second.
    by_cases hsecond : d = '<'
    · subst hsecond
      simp only [readLessThan, Heredoc.opening?_withReturns, afterSpace_returned]
      split
      · next heredoc n hn =>
        have hopening : SameLine (n + 2) ('<' :: '<' :: rest) :=
          sameLine_succ.mpr ⟨by decide, sameLine_succ.mpr ⟨by decide, Heredoc.sameLine_opening? hn⟩⟩
        refine ite_returned (fun _ => ?_) fun _ => hoperator
        rw [hop_returned hr hopening]
        rfl
      · exact hoperator
    · simpa [readLessThan, hsecond] using hoperator

/-- There are as many dots in both texts. -/
private theorem readDot_returned (hr : r.rest = '.' :: cs) :
    r.returned.readDot (withReturns cs) = (r.readDot cs).returned := by
  have hone : ∀ cs, SameLine 1 ('.' :: cs) := fun _ => sameLine_one (by decide)
  have hdot := skipDot_returned (n := 1) hr (hone cs)
  cases cs using newline_cases with
  | nil => exact hdot
  | newline rest => exact hdot
  | cons d rest hd =>
    rw [withReturns_cons hd]
    by_cases hsecond : d = '.'
    · subst hsecond
      have htwo : ∀ cs, SameLine 2 ('.' :: '.' :: cs) := fun cs =>
        sameLine_succ.mpr ⟨by decide, hone cs⟩
      have hrange := skipOperator_returned (n := 2) hr (htwo rest)
      -- Dots at the end of a line are followed by the return, which is no dot.
      cases rest using newline_cases with
      | nil => exact hrange
      | newline rest => exact hrange
      | cons e rest he =>
        rw [withReturns_cons he]
        by_cases hthird : e = '.'
        · subst hthird
          exact skipOperator_returned (n := 3) hr (sameLine_succ.mpr ⟨by decide, htwo rest⟩)
        · simpa [readDot, hthird] using hrange
    · simpa [readDot, hsecond] using hdot

/-- The name of a variable ends with its line. -/
private theorem readVariable_returned (hr : r.rest = '@' :: cs) :
    r.returned.readVariable (withReturns cs) = (r.readVariable cs).returned := by
  have hword : ∀ cs, SameLine (wordLength cs + 1) ('@' :: cs) := fun cs =>
    sameLine_succ.mpr ⟨by decide, sameLine_wordLength cs⟩
  have hvariable : r.returned.skipValue (wordLength (withReturns cs) + 1) =
      (r.skipValue (wordLength cs + 1)).returned := by
    rw [wordLength_withReturns]
    exact skipValue_returned hr (hword cs)
  cases cs using newline_cases with
  | nil => exact hvariable
  | newline rest => exact hvariable
  | cons d rest hd =>
    rw [withReturns_cons hd] at hvariable ⊢
    by_cases hsecond : d = '@'
    · subst hsecond
      simp only [readVariable, wordLength_withReturns]
      exact skipValue_returned hr (sameLine_succ.mpr ⟨by decide, hword rest⟩)
    · simpa [readVariable, hsecond] using hvariable

/-- A global takes the same characters, unless the one after the sign is a newline. -/
private theorem readGlobal_returned (hr : r.rest = '$' :: cs) (hcs : cs.head? ≠ some '\n') :
    r.returned.readGlobal (withReturns cs) = (r.readGlobal cs).returned := by
  unfold readGlobal
  rw [any_head?_withReturns cs (by decide), wordLength_withReturns]
  refine skipValue_returned hr ?_
  split
  · exact sameLine_succ.mpr ⟨by decide, sameLine_wordLength cs⟩
  · refine sameLine_succ.mpr ⟨by decide, ?_⟩
    cases cs with
    | nil => simp [SameLine]
    | cons d rest => exact sameLine_one (by simpa using hcs)

/-- A character literal is the same in both texts, unless it escapes a newline. -/
private theorem readQuestionMark_returned (hr : r.rest = '?' :: cs)
    (hcs : r.valueExpected = true → ∀ rest, cs ≠ '\\' :: '\n' :: rest) :
    r.returned.readQuestionMark (withReturns cs) = (r.readQuestionMark cs).returned := by
  have hoperator := skipOperator_returned (n := 1) hr (sameLine_one (by decide))
  unfold readQuestionMark
  rw [characterLength?_withReturns]
  split
  · next n hn =>
    refine ite_returned (fun hvalue => ?_) fun _ => hoperator
    exact skipValue_returned hr (sameLine_characterLength? hn (hcs hvalue))
  · exact hoperator

/-- Brackets and operators are single characters, but for the dots. -/
private theorem readSign_returned (hr : r.rest = c :: cs) (hc : c ≠ '\n') :
    r.returned.readSign c (withReturns cs) = (r.readSign c cs).returned := by
  have hone : SameLine 1 (c :: cs) := sameLine_one hc
  have hhop : r.returned.hop 1 = (r.hop 1).returned := hop_returned hr hone
  unfold readSign
  refine ite_returned (fun _ => ?_) fun _ => ?_
  · rw [hhop]
    rfl
  refine ite_returned (fun _ => ?_) fun _ => ?_
  · rw [hhop]
    rfl
  refine ite_returned (fun _ => ?_) fun _ => ?_
  · simp only [readSemicolon, hhop, closeEndless_returned]
    rfl
  refine ite_returned (fun hdot => ?_) fun _ => ?_
  · subst hdot
    exact readDot_returned hr
  simp only [head?_withReturns_eq cs (x := '.') (by decide) (by decide)]
  refine ite_returned (fun hsafe => ?_) fun _ => skipOperator_returned hr hone
  obtain ⟨rest, rfl⟩ := List.head?_eq_some_iff.mp hsafe.2
  exact skipDot_returned hr (sameLine_succ.mpr ⟨hc, sameLine_one (by decide)⟩)

/-- All punctuation is read alike, but for the two signs that step over a newline. -/
theorem readPunctuation_returned (hr : r.rest = c :: cs) (hc : c ≠ '\n')
    (hglobal : c = '$' → cs.head? ≠ some '\n')
    (hliteral : c = '?' → r.valueExpected = true → ∀ rest, cs ≠ '\\' :: '\n' :: rest) :
    r.returned.readPunctuation c (withReturns cs) = (r.readPunctuation c cs).returned := by
  -- Case by case; most pieces end before their line does, and literals take newlines along as they
  -- are.
  unfold readPunctuation
  refine ite_returned (fun hquote => ?_) fun _ => ?_
  · exact skipLiteral_returned hr (sameLine_one hc) (Frame.string_lasts hquote)
  refine ite_returned (fun _ => ?_) fun _ => ?_
  · rw [← withReturns_cons hc, numberLength_withReturns]
    exact skipValue_returned hr (sameLine_numberLength (c :: cs))
  refine ite_returned (fun h => ?_) fun _ => ?_
  · subst h
    exact readColon_returned hr
  refine ite_returned (fun h => ?_) fun _ => ?_
  · subst h
    exact readVariable_returned hr
  refine ite_returned (fun h => ?_) fun _ => ?_
  · subst h
    exact readGlobal_returned hr (hglobal rfl)
  refine ite_returned (fun h => ?_) fun _ => ?_
  · subst h
    exact readPercent_returned hr
  refine ite_returned (fun h => ?_) fun _ => ?_
  · subst h
    exact readSlash_returned hr
  refine ite_returned (fun h => ?_) fun _ => ?_
  · subst h
    exact readQuestionMark_returned hr (hliteral rfl)
  refine ite_returned (fun h => ?_) fun _ => ?_
  · subst h
    exact readLessThan_returned hr
  · exact readSign_returned hr hc

/-! ## Words -/

/-- A constant is the same slice of the text. -/
private theorem takeConstant_returned (hr : r.rest = cs) (h : SameLine n cs) :
    r.returned.takeConstant n = (r.takeConstant n).returned := by
  subst hr
  simp only [takeConstant, hop_returned rfl h]
  rw [rest_returned, take_withReturns h]
  rfl

/-- An identifier is the same in both texts. -/
private theorem takeIdentifier_returned (hr : r.rest = cs) (h : SameLine n cs) :
    r.returned.takeIdentifier n = (r.takeIdentifier n).returned := by
  subst hr
  simp only [takeIdentifier, hop_returned rfl h]
  rw [rest_returned, take_withReturns h]
  rfl

/-- The body of a method is opened alike. -/
private theorem openDefinition_returned (r : Reader) (endless : Bool) :
    r.returned.openDefinition endless = (r.openDefinition endless).returned := by
  cases endless <;> rfl

/-- The head of a definition is on one line, and whether it is endless is the same. -/
private theorem readDefinition_returned (h : SameLine 3 r.rest) :
    r.returned.readDefinition = r.readDefinition.returned := by
  simp only [readDefinition, hop_returned rfl h, rest_returned]
  generalize r.hop 3 = head
  -- From the keyword to the name, past spaces and the receiver.
  have hspaces := sameLine_spacesLength head.rest
  simp only [spacesLength_withReturns, drop_withReturns hspaces, receiverLength_withReturns]
  generalize hreceiver : receiverLength (head.rest.drop (spacesLength head.rest)) = receiver
  have hthere : SameLine (spacesLength head.rest + receiver) head.rest :=
    hspaces.add (hreceiver ▸ sameLine_receiverLength _)
  simp only [hop_returned rfl hthere, rest_returned]
  generalize head.hop (spacesLength head.rest + receiver) = there
  -- The name, and how the definition goes on after it.
  have hname := sameLine_methodNameLength there.rest
  simp only [methodNameLength_withReturns, drop_withReturns hname, take_withReturns hname,
    isEndless_withReturns, openDefinition_returned]
  have hopened : ∀ endless, (there.openDefinition endless).rest = there.rest := fun endless =>
    congrArg Cursor.rest (there.toCursor_openDefinition endless)
  refine ite_returned (fun _ => ?_) fun _ => rfl
  rw [hop_returned (hopened _) hname]
  rfl

/-- What follows the keyword of a class is only looked at. -/
private theorem readClass_returned (h : SameLine 5 r.rest) :
    r.returned.readClass = r.readClass.returned := by
  simp only [readClass, hop_returned rfl h]
  have hrest : (r.hop 5).returned.markOperator.rest = withReturns (r.hop 5).rest := rfl
  rw [hrest, dropWhile_withReturns _ (by decide) (by decide), rest_markOperator]
  cases (r.hop 5).rest.dropWhile isSpace using newline_cases with
  | nil => rfl
  | newline rest => rfl
  | cons c rest hc =>
    rw [withReturns_cons hc]
    -- Two signs make a singleton class, and a return is none of them.
    by_cases hfirst : c = '<'
    · subst hfirst
      cases rest using newline_cases with
      | nil => rfl
      | newline rest => rfl
      | cons d rest hd =>
        rw [withReturns_cons hd]
        by_cases hsecond : d = '<'
        · subst hsecond
          rfl
        · simp [hsecond]
          rfl
    · simp [hfirst]
      rfl

/-- An `end` closes the same block. -/
private theorem readEnd_returned (h : SameLine 3 r.rest) :
    r.returned.readEnd = r.readEnd.returned := by
  simp only [readEnd, hop_returned rfl h]
  rw [show r.returned.blocks = r.blocks from rfl]
  split <;> rfl

/-- A block is opened alike. -/
private theorem openBlock_returned (r : Reader) (word : String) :
    r.returned.openBlock word = (r.openBlock word).returned := by
  unfold openBlock
  dsimp only
  split <;> rfl

/-- A keyword opens the same block in both texts, for a loop header is on one line. -/
private theorem openBlockOf_returned (r : Reader) (word : String) :
    r.returned.openBlockOf word = (r.openBlockOf word).returned := by
  have hvalue : r.returned.valueExpected = r.valueExpected := rfl
  have hloop : r.returned.loopLine = some r.returned.line ↔ r.loopLine = some r.line := .rfl
  unfold openBlockOf
  simp only [hvalue, hloop, openBlock_returned]
  grind [returned, moveTo, push]

/-- Any other keyword is read alone in both texts. -/
private theorem readOtherKeyword_returned {word : String} (h : SameLine word.length r.rest) :
    r.returned.readOtherKeyword word = (r.readOtherKeyword word).returned := by
  have hopened : (r.openBlockOf word).rest = r.rest :=
    congrArg Cursor.rest (r.toCursor_openBlockOf word)
  simp only [readOtherKeyword, openBlockOf_returned, hop_returned hopened h]
  split <;> rfl

/-- Every keyword is read alike in both texts. -/
private theorem readKeyword_returned {word : String} (h : SameLine word.length r.rest) :
    r.returned.readKeyword word = (r.readKeyword word).returned := by
  unfold readKeyword
  refine ite_returned (fun hword => ?_) fun _ => ?_
  · subst hword
    exact readDefinition_returned h
  refine ite_returned (fun hword => ?_) fun _ => ?_
  · subst hword
    rw [hop_returned (n := 6) rfl h]
    rfl
  refine ite_returned (fun hword => ?_) fun _ => ?_
  · subst hword
    exact readClass_returned h
  refine ite_returned (fun hword => ?_) fun _ => ?_
  · subst hword
    exact readEnd_returned h
  · exact readOtherKeyword_returned h

/-- A word is read alike, and so is what it takes along. -/
theorem readWord_returned (r : Reader) : r.returned.readWord = r.readWord.returned := by
  have hword := sameLine_wordAt r.rest
  have hpath := hword.add (sameLine_pathLength (r.rest.drop (wordAt r.rest).length))
  have hrooted : [':', ':'].isPrefixOf r.returned.before = [':', ':'].isPrefixOf r.before :=
    r.toPlace.isPrefixOf_colons_returned
  simp only [readWord, rest_returned, wordAt_withReturns, drop_withReturns hword,
    pathLength_withReturns, isLabelColon_withReturns, hrooted]
  refine ite_returned (fun _ => ?_) fun _ => ?_
  · refine ite_returned (fun _ => takeConstant_returned rfl ?_) fun _ =>
      takeIdentifier_returned rfl hword
    split
    · exact hpath
    · exact hword
  refine ite_returned (fun hlabel => ?_) fun _ => ?_
  · rw [hop_returned rfl (hword.add (sameLine_of_isLabelColon hlabel))]
    rfl
  refine ite_returned (fun _ => readKeyword_returned ?_) fun _ => ?_
  · rwa [String.length_ofList]
  exact ite_returned (fun _ => takeConstant_returned rfl hpath) fun _ =>
    takeIdentifier_returned rfl hword

/-! ## Ends of lines -/

/-- The end of a line, from the newline after the return. -/
theorem readNewline_returned (hr : r.rest = '\n' :: cs) :
    (r.returned.hop 1).readNewline = r.readNewline.returned := by
  have hnext : (r.returned.hop 1).nextLine = r.nextLine.returned :=
    r.toCursor.nextLine_return hr
  simp only [readNewline, hnext]
  -- The return changes nothing that is remembered of the line.
  rw [show (r.returned.hop 1).heredocs = r.heredocs from rfl, skipBodies_returned]
  generalize skipBodies r.heredocs r.nextLine = bodies
  have hclosed := closeEndless_returned { r.moveTo bodies.1 with heredocs := [] }
  rw [show Reader.returned { r.moveTo bodies.1 with heredocs := [] } =
    { (r.returned.hop 1).moveTo bodies.1.returned with heredocs := [] } from rfl] at hclosed
  rw [hclosed]
  rfl

end Reader

/-- The reading `x'` in the text with carriage returns brings up what `x` does.  It ends where `x`
    does or, if that is in front of a newline, past the return. -/
def Reading.Meets (x x' : Reading) : Prop :=
  x' = x.returned ∨ x.2.rest.head? = some '\n' ∧ x' = (x.1, x.2.returned.hop 1)

namespace Reader

variable {r : Reader} {n : Nat}

/-- A hop may be made in two. -/
theorem hop_add (r : Reader) (n m : Nat) : r.hop (n + m) = (r.hop n).hop m := by
  simp [hop, Cursor.hop, List.take_add, List.drop_drop, Place.along_append]

/-- A stretch of one line and, in the text with carriage returns, one more character. -/
theorem hop_return (h : SameLine n r.rest) : r.returned.hop (n + 1) = (r.hop n).returned.hop 1 := by
  rw [hop_add, hop_returned rfl h]

/-- A comment has the same text.  In the text with returns it takes the return along, and so stops
    in front of the newline there too. -/
theorem readComment_meets (r : Reader) : Reading.Meets r.readComment r.returned.readComment := by
  have htext : r.returned.currentLine = r.currentLine := r.toCursor.currentLine_returned
  have hplace : r.returned.location = r.location := rfl
  by_cases hmem : '\n' ∈ r.rest
  · -- The comment ends at a newline, in front of which the return comes in.
    obtain ⟨line, rest, hrest, hline⟩ := List.eq_append_cons_of_mem hmem
    have hcomment := Cursor.takeWhile_line hrest hline
    have hcomment' : r.returned.rest.takeWhile (· ≠ '\n') = line ++ ['\r'] :=
      Cursor.takeWhile_line (Cursor.rest_returned_line hrest hline) (by simpa using hline)
    have hlength : SameLine line.length r.rest :=
      sameLine_of_prefix ⟨'\n' :: rest, hrest.symm⟩ hline
    right
    constructor
    · rw [readComment, hcomment]
      simp [hrest]
    · simp only [readComment, htext, hplace, hcomment, hcomment', List.length_append,
        List.length_singleton, hop_return hlength]
  · -- It is on the last line, where none comes in.
    left
    have hcomment : r.returned.rest = r.rest := withReturns_of_not_mem hmem
    rw [readComment, htext, hplace, hcomment, hop_returned rfl (sameLine_takeWhile (by decide) _)]
    rfl

end Reader

end ScopeTags.Source
