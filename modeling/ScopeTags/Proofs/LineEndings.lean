import ScopeTags.Proofs.ReadingEffect
import ScopeTags.Proofs.ReturnedReading
import ScopeTags.Source.Transcript

/-!
# Line endings

Where a newline ends a line, a carriage return in front of it changes nothing.  But some pieces of a
text take a newline along: a backslash before it continues the line, and the character after a
dollar sign and the one after the backslash of a character literal are taken whatever they are.  A
return in front of such a newline is taken in its place, or stands between it and the backslash, and
the newline ends the line after all.

`Reader.eventsWithin` reads a text in that way, with every newline at the end of a line.  It is what
reading brings up in the text with carriage returns, for every text.  A text that keeps its newlines
out of such pieces is read as before.  So is one in which a backslash continues a line that could as
well have ended there, as after an operator.

## Key results

- `Reader.events_returned`: reading with returns is reading with every newline at the end of a line
- `Reader.events_of_parting?_eq_none`, `Reader.events_of_parting?_eq_some`: where the two readings
  of a text are the same
- `transcribe_withReturns`: what becomes of the transcript of a source
-/

namespace ScopeTags.Source

namespace Reader

/-! ## Pieces without their newline -/

/-- The next piece of the text without the newline at its end, if it takes one along. -/
def cutShort? (r : Reader) : Option Reading :=
  match r.rest with
  | '\\' :: '\n' :: _ => some (r.skipOperator 1)
  | '$' :: '\n' :: _ => some (r.skipValue 1)
  | '?' :: '\\' :: '\n' :: _ => if r.valueExpected then some (r.skipValue 2) else none
  | _ => none

/-- Read one piece of the text, but no newline together with what comes before it. -/
def stepWithin? (r : Reader) : Option Reading := r.cutShort?.or r.step?

variable {r next : Reader} {c : Char} {cs : List Char} {x : Reading}

/-- Which pieces take a newline along. -/
private theorem cutShort?_cases (h : r.cutShort? = some x) :
    (∃ cs, r.rest = '\\' :: '\n' :: cs ∧ x = r.skipOperator 1) ∨
      (∃ cs, r.rest = '$' :: '\n' :: cs ∧ x = r.skipValue 1) ∨
      ∃ cs, r.rest = '?' :: '\\' :: '\n' :: cs ∧ r.valueExpected = true ∧ x = r.skipValue 2 := by
  unfold cutShort? at h
  split at h
  · next cs hr => exact .inl ⟨cs, hr, (Option.some.inj h).symm⟩
  · next cs hr => exact .inr (.inl ⟨cs, hr, (Option.some.inj h).symm⟩)
  · next cs hr =>
    split at h
    · next hvalue => exact .inr (.inr ⟨cs, hr, hvalue, (Option.some.inj h).symm⟩)
    · cases h
  · cases h

/-- A piece that is cut short is not empty either. -/
private theorem stepWithin?_shorter {found : List Event} (h : r.stepWithin? = some (found, next)) :
    next.rest.length < r.rest.length := by
  rw [stepWithin?, Option.or_eq_some_iff] at h
  rcases h with hcut | ⟨-, hstep⟩
  · rcases cutShort?_cases hcut with ⟨cs, hr, hx⟩ | ⟨cs, hr, hx⟩ | ⟨cs, hr, -, hx⟩ <;>
      cases hx <;> simp [hr]
  · exact step?_shorter hstep

/-- Everything that reading brings up if every newline ends a line. -/
def eventsWithin (r : Reader) : List Event :=
  match _h : r.stepWithin? with
  | none => r.finish
  | some (found, next) => found ++ next.eventsWithin
termination_by r.rest.length
decreasing_by exact stepWithin?_shorter _h

/-- At the end of the text. -/
private theorem eventsWithin_of_none (h : r.stepWithin? = none) : r.eventsWithin = r.finish := by
  rw [eventsWithin]
  split
  · rfl
  · next hs => rw [h] at hs; cases hs

/-- The events of a text are those of one piece and those of the rest. -/
private theorem eventsWithin_of_some {found : List Event} (h : r.stepWithin? = some (found, next)) :
    r.eventsWithin = found ++ next.eventsWithin := by
  rw [eventsWithin]
  split
  · next hn => rw [h] at hn; cases hn
  · next hs =>
    rw [h] at hs
    cases hs
    rfl

/-! ## Steps in the text with returns -/

/-- A newline is a piece of its own in both ways of reading. -/
private theorem stepWithin?_newline (hr : r.rest = '\n' :: cs) :
    r.stepWithin? = some r.readNewline := by
  simp [stepWithin?, cutShort?, hr, step?_newline hr]

/-- The return in front of a newline is a gap. -/
private theorem events_return (hr : r.rest = '\n' :: cs) :
    r.returned.events = (r.returned.hop 1).events := by
  have hrest : r.returned.rest = '\r' :: '\n' :: withReturns cs := by
    rw [rest_returned, hr, withReturns_newline]
  have hstep : r.returned.step? = some ([], r.returned.hop 1) :=
    step?_eq_read hrest (.inr (by decide))
  rw [events_of_step? hstep, List.nil_append]

/-- Where a piece would take a newline along, the return keeps them apart. -/
private theorem cutShort?_meets (h : r.cutShort? = some x) :
    ∃ x', r.returned.step? = some x' ∧ x.Meets x' := by
  rcases cutShort?_cases h with ⟨cs, hr, rfl⟩ | ⟨cs, hr, rfl⟩ | ⟨cs, hr, hvalue, rfl⟩
  · -- The backslash does not see the newline behind the return.
    have hrest : r.returned.rest = '\\' :: '\r' :: '\n' :: withReturns cs := by
      rw [rest_returned, hr, withReturns_cons (by decide), withReturns_newline]
    have hstep : r.returned.step? = some (r.returned.skipOperator 1) :=
      step?_eq_read hrest (.inr (by decide))
    exact ⟨_, hstep, .inl (skipOperator_returned hr (sameLine_one (by decide)))⟩
  · -- The return is taken in place of the newline.
    have hrest : r.returned.rest = '$' :: '\r' :: '\n' :: withReturns cs := by
      rw [rest_returned, hr, withReturns_cons (by decide), withReturns_newline]
    have hstep : r.returned.step? = some (r.returned.skipValue 2) :=
      step?_eq_read hrest (.inr (by decide))
    have hone : SameLine 1 r.rest := hr ▸ sameLine_one (by decide)
    refine ⟨_, hstep, .inr ⟨by simp [skipValue, hr], ?_⟩⟩
    rw [skipValue, hop_return hone]
    rfl
  · -- So it is in a character literal.
    have hrest : r.returned.rest = '?' :: '\\' :: '\r' :: '\n' :: withReturns cs := by
      rw [rest_returned, hr, withReturns_cons (by decide), withReturns_cons (by decide),
        withReturns_newline]
    have hstep : r.returned.step? = some (r.returned.skipValue 3) :=
      (step?_eq_read hrest (.inr (by decide))).trans (congrArg some (if_pos hvalue))
    have htwo : SameLine 2 r.rest := hr ▸ sameLine_succ.mpr ⟨by decide, sameLine_one (by decide)⟩
    refine ⟨_, hstep, .inr ⟨by simp [skipValue, hr], ?_⟩⟩
    rw [skipValue, hop_return htwo]
    rfl

/-- A piece that takes no newline along is read alike with returns. -/
private theorem read_meets (hr : r.rest = c :: cs) (hc : c ≠ '\n') (hcut : r.cutShort? = none) :
    (r.read c cs).Meets (r.returned.read c (withReturns cs)) := by
  -- Of the pieces that take a newline along, each would have been cut short.
  have hcontinued : ¬(c = '\\' ∧ cs.head? = some '\n') := by
    rintro ⟨rfl, hnewline⟩
    obtain ⟨rest, rfl⟩ := List.head?_eq_some_iff.mp hnewline
    simp [cutShort?, hr] at hcut
  have hglobal : c = '$' → cs.head? ≠ some '\n' := by
    rintro rfl hnewline
    obtain ⟨rest, rfl⟩ := List.head?_eq_some_iff.mp hnewline
    simp [cutShort?, hr] at hcut
  have hliteral : c = '?' → r.valueExpected = true → ∀ rest, cs ≠ '\\' :: '\n' :: rest := by
    rintro rfl hvalue rest rfl
    simp [cutShort?, hr, hvalue] at hcut
  -- With the return in between, no backslash is in front of a newline.
  have hcontinued' : ¬(c = '\\' ∧ (withReturns cs).head? = some '\n') := fun h =>
    head?_withReturns_ne_newline cs h.2
  -- What is left are gaps, comments, words and punctuation.
  simp only [read, if_neg hc, if_neg hcontinued, if_neg hcontinued']
  by_cases hgap : isGap c = true
  · simp only [if_pos hgap, hop_returned hr (sameLine_one hc)]
    exact .inl rfl
  simp only [if_neg hgap]
  by_cases hcomment : c = '#'
  · simp only [if_pos hcomment]
    exact r.readComment_meets
  · simp only [if_neg hcomment]
    left
    exact Reading.ite_returned (fun _ => r.readWord_returned) fun _ =>
      readPunctuation_returned hr hc hglobal hliteral

/-- One step meets the one in the text with returns, also over an embedded document. -/
private theorem step?_meets (hnewline : r.rest.head? ≠ some '\n') (hcut : r.cutShort? = none) :
    Option.Rel Reading.Meets r.step? r.returned.step? := by
  cases hr : r.rest with
  | nil =>
    simp only [step?, rest_returned, hr, withReturns_nil]
    exact .none
  | cons c cs =>
    have hc : c ≠ '\n' := by simpa [hr] using hnewline
    -- A return does not hide the marker, nor the start of a document.
    have hmarker := startsEndMarker_withReturns (c :: cs)
    have hdocument := startsDocument_withReturns (c :: cs)
    have hcolumn : r.returned.column = r.column := rfl
    rw [withReturns_cons hc] at hmarker hdocument
    simp only [step?, rest_returned, hr, withReturns_cons hc, hcolumn, hmarker, hdocument]
    split
    · exact .none
    split
    · refine .some (.inl ?_)
      rw [show r.returned.toCursor = r.toCursor.returned from rfl, skipDocument_returned]
      rfl
    · exact .some (read_meets hr hc hcut)

/-! ## Runs -/

/-- A reading that ends past the return goes on as from in front of it. -/
private theorem events_of_meets {x' : Reading} (hstep : r.returned.step? = some x')
    (h : x.Meets x') : r.returned.events = x.1 ++ x.2.returned.events := by
  obtain rfl | ⟨hnewline, rfl⟩ := h
  · exact events_of_step? hstep
  · obtain ⟨cs, hcs⟩ := List.head?_eq_some_iff.mp hnewline
    rw [events_of_step? hstep, events_return hcs]

/-- One piece in the text with returns, which may take two steps. -/
private theorem events_returned_of_some (h : r.stepWithin? = some x) :
    r.returned.events = x.1 ++ x.2.returned.events := by
  by_cases hnewline : r.rest.head? = some '\n'
  · -- The return is a step of its own, and the newline after it the next one.
    obtain ⟨cs, hr⟩ := List.head?_eq_some_iff.mp hnewline
    have hrest : (r.returned.hop 1).rest = '\n' :: withReturns cs := by
      rw [rest_hop, rest_returned, hr, withReturns_newline, List.drop_one, List.tail_cons]
    rw [stepWithin?_newline hr] at h
    obtain rfl := Option.some.inj h
    have hstep : (r.returned.hop 1).step? = some r.readNewline.returned := by
      rw [step?_newline hrest, readNewline_returned hr]
    rw [events_return hr]
    exact events_of_step? hstep
  cases hcut : r.cutShort? with
  | some y =>
    rw [stepWithin?, hcut, Option.some_or] at h
    obtain rfl := Option.some.inj h
    obtain ⟨x', hstep, hmeets⟩ := cutShort?_meets hcut
    exact events_of_meets hstep hmeets
  | none =>
    rw [stepWithin?, hcut, Option.none_or] at h
    have hrel := step?_meets hnewline hcut
    generalize hstep : r.returned.step? = step' at hrel
    rw [h] at hrel
    cases hrel with
    | some hmeets => exact events_of_meets hstep hmeets

/-- Both texts end at the same piece. -/
private theorem events_returned_of_none (h : r.stepWithin? = none) :
    r.returned.events = r.finish := by
  rw [stepWithin?, Option.or_eq_none_iff] at h
  -- A newline would have been a step.
  have hnewline : r.rest.head? ≠ some '\n' := by
    intro hnewline
    obtain ⟨cs, hr⟩ := List.head?_eq_some_iff.mp hnewline
    rw [step?_newline hr] at h
    cases h.2
  have hrel := step?_meets hnewline h.1
  generalize hstep : r.returned.step? = step' at hrel
  rw [h.2] at hrel
  cases hrel
  exact events_of_none hstep

/-- With carriage returns every newline ends a line. -/
theorem events_returned (r : Reader) : r.returned.events = r.eventsWithin := by
  -- By induction along the reading in which every newline ends a line.
  fun_induction eventsWithin r with
  | case1 r h => exact events_returned_of_none h
  | case2 r found next h ih => rw [events_returned_of_some h, ih]

/-! ## Where the readings part -/

/-- Nothing is left over from the line, as at its end. -/
def isIdle (r : Reader) : Bool :=
  r.valueExpected && !r.afterDot && !r.afterIdentifier && r.heredocs.isEmpty

/-- Whether the next piece takes a newline along that would end the line: all of those do but a
    backslash where nothing is left over. -/
def parts (r : Reader) : Bool :=
  r.cutShort?.isSome && !(r.rest.head? = some '\\' && r.isIdle)

/-- The reader at the first piece that takes such a newline along. -/
def parting? (r : Reader) : Option Reader :=
  if r.parts then some r
  else
    match _h : r.step? with
    | none => none
    | some (_, next) => next.parting?
termination_by r.rest.length
decreasing_by exact step?_shorter _h

/-- A continued line that could have ended goes on as the next one does. -/
private theorem readNewline_of_isIdle (h : r.isIdle = true) :
    (r.skipOperator 1).2.readNewline = ([], r.moveTo (r.toCursor.hop 1).nextLine) := by
  rcases r with ⟨cursor, valueExpected, afterDot, afterIdentifier, depth, blocks, loopLine, endless,
    heredocs⟩
  simp only [isIdle, Bool.and_eq_true, Bool.not_eq_true', List.isEmpty_iff] at h
  obtain ⟨⟨⟨rfl, rfl⟩, rfl⟩, rfl⟩ := h
  rfl

/-- Where the readings do not part, they go on from the same reader. -/
private theorem eventsWithin_step {found : List Event} (hparts : r.parts = false)
    (h : r.step? = some (found, next)) : r.eventsWithin = found ++ next.eventsWithin := by
  cases hcut : r.cutShort? with
  | none =>
    apply eventsWithin_of_some
    rw [stepWithin?, hcut, Option.none_or, h]
  | some y =>
    -- What is cut short is a backslash, and the newline after it is the next step.
    obtain ⟨hbackslash, hidle⟩ : r.rest.head? = some '\\' ∧ r.isIdle = true := by
      simpa [parts, hcut] using hparts
    rcases cutShort?_cases hcut with ⟨cs, hr, rfl⟩ | ⟨cs, hr, -⟩ | ⟨cs, hr, -, -⟩
    · have hcontinued : r.step? = some ([], r.moveTo (r.toCursor.hop 1).nextLine) :=
        step?_eq_read hr (.inr (by decide))
      obtain ⟨rfl, rfl⟩ := Prod.mk.inj (Option.some.inj (h.symm.trans hcontinued))
      have hrest : (r.skipOperator 1).2.rest = '\n' :: cs := by simp [skipOperator, hr]
      have hnewline : (r.skipOperator 1).2.stepWithin? =
          some ([], r.moveTo (r.toCursor.hop 1).nextLine) := by
        rw [stepWithin?_newline hrest, readNewline_of_isIdle hidle]
      have hstep : r.stepWithin? = some (r.skipOperator 1) := by
        rw [stepWithin?, hcut, Option.some_or]
      exact (eventsWithin_of_some hstep).trans (eventsWithin_of_some hnewline)
    · simp [hr] at hbackslash
    · simp [hr] at hbackslash

/-- At the end of the text nothing can be cut short. -/
private theorem stepWithin?_eq_none (h : r.step? = none) : r.stepWithin? = none := by
  cases hcut : r.cutShort? with
  | none => rw [stepWithin?, hcut, Option.none_or, h]
  | some y =>
    exfalso
    rcases cutShort?_cases hcut with ⟨cs, hr, -⟩ | ⟨cs, hr, -⟩ | ⟨cs, hr, -, -⟩ <;>
      simp [step?_eq_read hr (.inr (by decide))] at h

/-- If they never part, the readings are the same. -/
theorem events_of_parting?_eq_none (h : r.parting? = none) : r.eventsWithin = r.events := by
  fun_induction parting? r with
  | case1 r hparts => cases h
  | case2 r hparts hstep =>
    rw [eventsWithin_of_none (stepWithin?_eq_none hstep), events_of_none hstep]
  | case3 r hparts found next hstep ih =>
    have hparts := Bool.eq_false_iff.mpr hparts
    rw [eventsWithin_step hparts hstep, events_of_step? hstep, ih h]

/-- If they part, they are the same up to there. -/
theorem events_of_parting?_eq_some {stop : Reader} (h : r.parting? = some stop) :
    stop.parts = true ∧
      ∃ found, r.events = found ++ stop.events ∧ r.eventsWithin = found ++ stop.eventsWithin := by
  fun_induction parting? r with
  -- They part here.
  | case1 r hparts =>
    obtain rfl := Option.some.inj h
    exact ⟨hparts, [], rfl, rfl⟩
  | case2 r hparts hstep => cases h
  | case3 r hparts found next hstep ih =>
    have hparts := Bool.eq_false_iff.mpr hparts
    obtain ⟨hstop, before, hevents, hwithin⟩ := ih h
    refine ⟨hstop, found ++ before, ?_, ?_⟩
    · rw [events_of_step? hstep, hevents, List.append_assoc]
    · rw [eventsWithin_step hparts hstep, hwithin, List.append_assoc]

end Reader

/-! ## Transcripts -/

/-- What becomes of a source when every newline gets a carriage return in front of it.  The text is
    read with every newline at the end of a line.  If no piece of it takes a newline along that
    would have ended the line, its transcript stays as it is; otherwise the events are the same up
    to the first such piece. -/
theorem transcribe_withReturns (source : String) :
    let start : Reader := Reader.start source.toList
    let returned : String := String.ofList (withReturns source.toList)
    events returned = start.eventsWithin ∧
      (start.parting? = none →
        ∀ strict file, transcribe strict file returned = transcribe strict file source) ∧
      ∀ stop, start.parting? = some stop →
        stop.parts = true ∧
          ∃ found, events source = found ++ stop.events ∧
            events returned = found ++ stop.eventsWithin := by
  intro start returned
  have hevents : events returned = start.eventsWithin := by
    rw [← start.events_returned, events, String.toList_ofList]
    rfl
  refine ⟨hevents, ?_, ?_⟩
  · intro hnone strict file
    -- A transcript is made of the events alone.
    have hsame : events returned = events source :=
      hevents.trans (Reader.events_of_parting?_eq_none hnone)
    rw [transcribe, transcribe, eventsIn, eventsIn, hsame]
  · intro stop hsome
    rw [hevents]
    exact Reader.events_of_parting?_eq_some hsome

/-- A comment, a string and a heredoc of several lines, and a backslash after an operator. -/
theorem transcribe_withReturns_lines :
    let source : String := "# a\nx = \\\n  \"b\nc\"\ny <<~E\n  end\nE\nclass C; end\n"
    (Reader.start source.toList).parting? = none ∧
      ∀ strict file, transcribe strict file (String.ofList (withReturns source.toList)) =
        transcribe strict file source := by
  intro source
  have hnone : (Reader.start source.toList).parting? = none := by decide +kernel
  exact ⟨hnone, (transcribe_withReturns source).2.1 hnone⟩

/-- Three sources whose tokens change: an operand before the backslash that continues its line, a
    dollar sign and a character literal. -/
theorem tokens_change_withReturns :
    let tokens : String → List Token := fun source => (transcribe false none source).tokens
    let returned : String → String := fun source => String.ofList (withReturns source.toList)
    tokens (returned "module A\nx \\\nif y\nend\n") ≠ tokens "module A\nx \\\nif y\nend\n" ∧
      tokens (returned "$\nx\n") ≠ tokens "$\nx\n" ∧
      tokens (returned "?\\\nx\n") ≠ tokens "?\\\nx\n" := by
  decide +kernel

end ScopeTags.Source
