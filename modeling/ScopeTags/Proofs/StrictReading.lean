import ScopeTags.Proofs.ReadingEffect
import ScopeTags.Source.Transcript

/-!
# Strict and lenient reading

A strict reading stops at the first construct that is still open where the text ends; a lenient one
goes on.  There is not much to go on to.  A construct is reported only when all of the text has been
read, so what follows are further reports and the ends of the endless definitions that are still
open.

## Key results

- `Reader.step?_reportsLast`: a step that reports a construct leaves no text
- `Reader.events_of_reports`: what reading brings up from there on
- `transcribe_strict_lenient`: how far the two kinds of reading agree
-/

namespace ScopeTags.Source

/-- Whether the event reports a construct that is still open where the text ends. -/
def Event.isReport : Event → Bool
  | unterminated .. => true
  | _ => false

/-- The tokens among the events are `n` ends of endless definitions. -/
def EndsOnly (n : Nat) (found : List Event) : Prop :=
  found.filterMap Event.token? = List.replicate n (Token.keyword "end" (some .scopeEnd) none {})

/-- Ends add up. -/
theorem EndsOnly.append {n m : Nat} {found more : List Event} (h : EndsOnly n found)
    (h' : EndsOnly m more) : EndsOnly (n + m) (found ++ more) := by
  rw [EndsOnly, List.filterMap_append, h, h', List.replicate_append_replicate]

/-- Reports are no tokens. -/
theorem endsOnly_of_reports {found : List Event} (h : ∀ event ∈ found, event.isReport = true) :
    EndsOnly 0 found := by
  apply List.filterMap_eq_nil_iff.mpr
  intro event hmem
  have hreport := h event hmem
  cases event with
  | unterminated what line => rfl
  | token t => cases hreport
  | strayEnd line => cases hreport
  | unclosedBlocks count => cases hreport

/-- There is one end for each endless definition. -/
private theorem endsOnly_impliedEnds (depths : List Nat) :
    EndsOnly depths.length (depths.map fun _ => Reader.impliedEnd) := by
  induction depths with
  | nil => rfl
  | cons depth depths ih => exact congrArg (_ :: ·) ih

/-- The ends of endless definitions report no construct. -/
private theorem not_isReport_impliedEnds (depths : List Nat) :
    (depths.map fun _ => Reader.impliedEnd).any Event.isReport = false := by
  simp [Reader.impliedEnd, Event.isReport]

/-! ## Passing over text

Where something is reported, the text has been read to its end. -/

/-- A literal brings up reports and nothing else. -/
theorem isReport_skipFrames (frames : List Frame) (p : Place) (cs : List Char) :
    ∀ event ∈ (skipFrames frames p cs).2, event.isReport = true := by
  fun_induction skipFrames frames p cs with
  | case1 p cs => simp
  | case2 frames p hne =>
    intro event hmem
    obtain ⟨frame, -, hreport⟩ := List.mem_filterMap.mp hmem
    cases frame <;> cases hreport <;> rfl
  | case3 p frame frames c cs ih => exact ih

/-- A literal reports only at the end of the text. -/
theorem rest_skipFrames (frames : List Frame) (p : Place) (cs : List Char)
    (h : (skipFrames frames p cs).2 ≠ []) : (skipFrames frames p cs).1.rest = [] := by
  fun_induction skipFrames frames p cs with
  | case1 p cs => exact absurd rfl h
  | case2 frames p hne => rfl
  | case3 p frame frames c cs ih => exact ih h

/-- Lines are read to the end of the text where the one that is looked for does not come. -/
private theorem Cursor.rest_linesThrough {ends : List Char → Bool} {k : Cursor}
    (h : (k.linesThrough ends).1 = false) : (k.linesThrough ends).2.rest = [] := by
  fun_induction linesThrough ends k with
  | case1 k hnil => exact hnil
  | case2 k hne hends => cases h
  | case3 k hne hends ih => exact ih h

/-- The bodies of heredocs bring up reports and nothing else. -/
theorem isReport_skipBodies (heredocs : List Heredoc) (k : Cursor) :
    ∀ event ∈ (skipBodies heredocs k).2, event.isReport = true := by
  induction heredocs generalizing k with
  | nil => simp [skipBodies]
  | cons h heredocs ih =>
    simp only [skipBodies]
    split
    · exact ih _
    · intro event hmem
      rcases List.mem_cons.mp hmem with rfl | hmem
      · rfl
      · exact ih _ event hmem

/-- The bodies of heredocs report only at the end of the text. -/
private theorem rest_skipBodies (heredocs : List Heredoc) (k : Cursor)
    (h : (skipBodies heredocs k).2 ≠ []) : (skipBodies heredocs k).1.rest = [] := by
  induction heredocs generalizing k with
  | nil => exact absurd rfl h
  | cons d heredocs ih =>
    simp only [skipBodies] at h ⊢
    split at h
    · exact ih _ h
    · next hfound =>
      -- No text is left for the bodies after this one.
      have hnil := Cursor.rest_linesThrough (Bool.eq_false_iff.mpr hfound)
      have hle := length_rest_skipBodies_le heredocs (k.linesThrough d.endsAt).2
      rw [hnil, List.length_nil] at hle
      exact List.length_eq_zero_iff.mp (Nat.le_zero.mp hle)

namespace Reader

/-! ## One step -/

/-- A reading reports nothing, or it leaves no text and reports a construct before all else, and
    brings up no tokens but ends of endless definitions that it closes. -/
inductive ReportsLast (r : Reader) (reading : Reading) : Prop where
  | silent (none_reported : reading.1.any Event.isReport = false)
  | last (rest_eq : reading.2.rest = []) (first : reading.1.head?.any Event.isReport = true)
      (ends : ∃ n, EndsOnly n reading.1 ∧ r.endless.length = n + reading.2.endless.length)

/-- Where nothing is brought up, nothing is reported. -/
private theorem silent_of_nil (r next : Reader) : r.ReportsLast ([], next) := .silent rfl

private theorem silent_of_token (r next : Reader) (t : Token) : r.ReportsLast ([.token t], next) :=
  .silent rfl

/-- Whichever way the reading goes, it is enough that each of them reports last. -/
theorem ReportsLast.ite {r : Reader} {p : Prop} [Decidable p] {x y : Reading}
    (hx : r.ReportsLast x) (hy : r.ReportsLast y) : r.ReportsLast (if p then x else y) :=
  iteInduction (fun _ => hx) fun _ => hy

/-- A literal reports last. -/
private theorem skipLiteral_reportsLast (r : Reader) (n : Nat) (frame : Nat → Frame) :
    r.ReportsLast (r.skipLiteral n frame) := by
  have hreports := isReport_skipFrames [frame r.line] (r.toCursor.hop n).toPlace
    (r.toCursor.hop n).rest
  have hrest := rest_skipFrames [frame r.line] (r.toCursor.hop n).toPlace (r.toCursor.hop n).rest
  have hends := endsOnly_of_reports hreports
  -- All that it brings up are reports, so it is silent or the first one is a report.
  cases hfound : (r.skipLiteral n frame).1 with
  | nil => exact .silent (by rw [hfound]; rfl)
  | cons event events =>
    refine .last (hrest ?_) ?_ ⟨0, hends, (Nat.zero_add _).symm⟩
    · exact fun hnil => List.cons_ne_nil event events (hfound.symm.trans hnil)
    · rw [hfound]
      exact hreports event (List.mem_of_mem_head? (congrArg List.head? hfound))

/-- There are no flags where no text is left. -/
theorem ReportsLast.skipFlags {r : Reader} {found : List Event} {next : Reader}
    (h : r.ReportsLast (found, next)) : r.ReportsLast (found, next.skipFlags) := by
  cases h with
  | silent hnone => exact .silent hnone
  | last hrest hfirst hends =>
    refine .last ?_ hfirst hends
    rw [Reader.skipFlags, rest_hop, show next.rest = [] from hrest, List.drop_nil]

/-- Of symbols only a quoted one can be open. -/
private theorem readColon_reportsLast (r : Reader) (cs : List Char) :
    r.ReportsLast (r.readColon cs) := by
  unfold readColon
  split
  · exact r.silent_of_nil _
  · apply ReportsLast.ite (r.silent_of_nil _)
    apply ReportsLast.ite (r.skipLiteral_reportsLast 2 _)
    apply ReportsLast.ite (r.silent_of_nil _)
    exact ReportsLast.ite (r.silent_of_nil _) (r.silent_of_nil _)

/-- A percent literal can be. -/
private theorem readPercent_reportsLast (r : Reader) (cs : List Char) :
    r.ReportsLast (r.readPercent cs) := by
  unfold readPercent
  split
  · next type delim n _ =>
    split
    · have hliteral := r.skipLiteral_reportsLast n (Frame.percent type delim)
      dsimp only
      split
      · exact hliteral.skipFlags
      · exact hliteral
    · exact r.silent_of_nil _
  · exact r.silent_of_nil _

/-- A regular expression reports last. -/
private theorem readSlash_reportsLast (r : Reader) (cs : List Char) :
    r.ReportsLast (r.readSlash cs) := by
  unfold readSlash
  split
  · exact (r.skipLiteral_reportsLast 1 (Frame.regex false)).skipFlags
  · exact r.silent_of_nil _

/-- The announcement of a heredoc reports nothing. -/
theorem found_readLessThan (r : Reader) (cs : List Char) : (r.readLessThan cs).1 = [] := by
  unfold readLessThan
  repeat' split
  all_goals rfl

/-- Endless definitions that are closed are no longer open. -/
theorem closeEndless_endsOnly (r : Reader) :
    ∃ n, EndsOnly n r.closeEndless.1 ∧ r.endless.length = n + r.closeEndless.2.endless.length := by
  rw [closeEndless]
  split
  · exact ⟨0, rfl, (Nat.zero_add _).symm⟩
  · refine ⟨_, endsOnly_impliedEnds (r.endless.takeWhile (· = r.depth)), ?_⟩
    rw [← List.length_append, List.takeWhile_append_dropWhile]

/-- Closing endless definitions reports nothing. -/
private theorem closeEndless_silent (r : Reader) : r.closeEndless.1.any Event.isReport = false := by
  rw [closeEndless]
  split
  · rfl
  · exact not_isReport_impliedEnds _

/-- Brackets and operators report nothing. -/
private theorem readSign_reportsLast (r : Reader) (c : Char) (cs : List Char) :
    r.ReportsLast (r.readSign c cs) := by
  have hsemicolon : r.ReportsLast r.readSemicolon := .silent (r.hop 1).closeEndless_silent
  have hdot : r.ReportsLast (r.readDot cs) := by
    unfold readDot
    split <;> exact r.silent_of_nil _
  unfold readSign
  apply ReportsLast.ite (r.silent_of_nil _)
  apply ReportsLast.ite (r.silent_of_nil _)
  apply ReportsLast.ite hsemicolon
  apply ReportsLast.ite hdot
  exact ReportsLast.ite (r.silent_of_nil _) (r.silent_of_nil _)

/-- A variable brings up nothing. -/
theorem found_readVariable (r : Reader) (cs : List Char) : (r.readVariable cs).1 = [] := by
  unfold readVariable
  split <;> rfl

/-- A character literal brings up nothing. -/
theorem found_readQuestionMark (r : Reader) (cs : List Char) : (r.readQuestionMark cs).1 = [] := by
  unfold readQuestionMark
  split
  · split <;> rfl
  · rfl

/-- Of all punctuation only literals report, and they report last. -/
private theorem readPunctuation_reportsLast (r : Reader) (c : Char) (cs : List Char) :
    r.ReportsLast (r.readPunctuation c cs) := by
  have hvariable : r.ReportsLast (r.readVariable cs) :=
    .silent (by rw [found_readVariable]; rfl)
  have hquestion : r.ReportsLast (r.readQuestionMark cs) :=
    .silent (by rw [found_readQuestionMark]; rfl)
  have hlessThan : r.ReportsLast (r.readLessThan cs) :=
    .silent (by rw [found_readLessThan]; rfl)
  unfold readPunctuation
  apply ReportsLast.ite (r.skipLiteral_reportsLast 1 _)
  apply ReportsLast.ite (r.silent_of_nil _)
  apply ReportsLast.ite (r.readColon_reportsLast cs)
  apply ReportsLast.ite hvariable
  apply ReportsLast.ite (r.silent_of_nil _)
  apply ReportsLast.ite (r.readPercent_reportsLast cs)
  apply ReportsLast.ite (r.readSlash_reportsLast cs)
  apply ReportsLast.ite hquestion
  apply ReportsLast.ite hlessThan
  exact r.readSign_reportsLast c cs

/-- The head of a definition reports nothing. -/
private theorem readDefinition_silent (r : Reader) :
    r.readDefinition.1.any Event.isReport = false := by
  unfold readDefinition
  extract_lets head spaces receiver there n construct opened keyword
  split <;> rfl

/-- The keyword of a class reports nothing. -/
private theorem readClass_silent (r : Reader) : r.readClass.1.any Event.isReport = false := by
  unfold readClass
  dsimp only
  split <;> rfl

private theorem readEnd_silent (r : Reader) : r.readEnd.1.any Event.isReport = false := by
  unfold readEnd
  dsimp only
  split <;> rfl

/-- Words bring up tokens, and a remark on an `end` that closes nothing. -/
private theorem readWord_silent (r : Reader) : r.readWord.1.any Event.isReport = false := by
  unfold readWord
  extract_lets word rest text
  split
  · split <;> rfl
  split
  · rfl
  split
  · unfold readKeyword
    split
    · exact r.readDefinition_silent
    split
    · rfl
    split
    · exact r.readClass_silent
    split
    · exact r.readEnd_silent
    · rfl
  split <;> rfl

/-- Definitions may end at the end of the line, after the bodies that follow it. -/
private theorem readNewline_reportsLast (r : Reader) : r.ReportsLast r.readNewline := by
  have hreports := isReport_skipBodies r.heredocs r.nextLine
  have hrest := rest_skipBodies r.heredocs r.nextLine
  rw [readNewline]
  generalize skipBodies r.heredocs r.nextLine = bodies at hreports hrest
  obtain ⟨last, reports⟩ := bodies
  obtain ⟨n, hends, hlength⟩ := { r.moveTo last with heredocs := [] }.closeEndless_endsOnly
  have hsilent := { r.moveTo last with heredocs := [] }.closeEndless_silent
  -- The reports on the bodies come first, and then no text is left; the ends come after them.
  cases reports with
  | nil => exact .silent hsilent
  | cons report reports =>
    refine .last ?_ (hreports report List.mem_cons_self) ⟨n, ?_, hlength⟩
    · exact (rest_closeEndless _).trans (hrest (List.cons_ne_nil report reports))
    · rw [← Nat.zero_add n]
      exact (endsOnly_of_reports hreports).append hends

/-- Whatever stands next reports last. -/
private theorem read_reportsLast (r : Reader) (c : Char) (cs : List Char) :
    r.ReportsLast (r.read c cs) := by
  unfold read
  apply ReportsLast.ite r.readNewline_reportsLast
  apply ReportsLast.ite (r.silent_of_nil _)
  apply ReportsLast.ite (r.silent_of_nil _)
  apply ReportsLast.ite (r.silent_of_token _ _)
  apply ReportsLast.ite (.silent r.readWord_silent)
  exact r.readPunctuation_reportsLast c cs

/-- An embedded document that is not closed goes on to the end of the text. -/
private theorem skipDocument_reportsLast (r : Reader) :
    r.ReportsLast ((skipDocument r.toCursor).2, r.moveTo (skipDocument r.toCursor).1) := by
  rw [skipDocument]
  cases hfound : (r.nextLine.linesThrough endsDocument).1 with
  | true => exact .silent (by simp [hfound])
  | false =>
    refine .last (Cursor.rest_linesThrough hfound) (by simp [hfound, Event.isReport]) ⟨0, ?_, ?_⟩
    · simp [hfound, EndsOnly, Event.token?]
    · exact (Nat.zero_add _).symm

/-- A construct is reported only when all of the text has been read. -/
theorem step?_reportsLast {r : Reader} {reading : Reading} (h : r.step? = some reading) :
    r.ReportsLast reading := by
  unfold step? at h
  split at h
  · cases h
  split at h
  · cases h
  split at h
  · obtain rfl := Option.some.inj h
    exact r.skipDocument_reportsLast
  · obtain rfl := Option.some.inj h
    exact r.read_reportsLast _ _

/-! ## Where the text ends -/

/-- Where the text ends, the endless definitions that are open end too. -/
theorem finish_endsOnly (r : Reader) : EndsOnly r.endless.length r.finish := by
  have hheredoc : EndsOnly 0 (r.heredocs.head?.map fun h =>
      Event.unterminated (.heredoc (String.ofList h.terminator)) r.line).toList := by
    cases r.heredocs <;> rfl
  have hblocks : EndsOnly 0
      (if r.blocks.isEmpty then [] else [Event.unclosedBlocks r.blocks.length]) := by
    split <;> rfl
  have hall := (hheredoc.append (endsOnly_impliedEnds r.endless)).append hblocks
  rwa [Nat.zero_add, Nat.add_zero] at hall

/-- A heredoc that is still to come is reported before all else. -/
theorem finish_head?_isReport {r : Reader} (h : r.finish.any Event.isReport = true) :
    r.finish.head?.any Event.isReport = true := by
  cases hheredocs : r.heredocs with
  | cons heredoc heredocs => simp [finish, hheredocs, Event.isReport]
  | nil =>
    -- The ends and the remark on blocks report no construct.
    have hends := not_isReport_impliedEnds r.endless
    rw [finish, hheredocs, List.any_append, List.any_append, hends] at h
    split at h <;> cases h

/-! ## All of the text -/

/-- What the next piece of the text brings up, or what is left to say where there is none. -/
def found (r : Reader) : List Event := (r.step?.map Prod.fst).getD r.finish

/-- The reader at the first piece of the text that brings up a report. -/
def halt? (r : Reader) : Option Reader :=
  if r.found.any Event.isReport then some r
  else
    match _h : r.step? with
    | none => none
    | some (_, next) => next.halt?
termination_by r.rest.length
decreasing_by exact step?_shorter _h

/-- From a report on, reading brings up reports and the ends of the endless definitions that are
    open, and nothing that is a token besides. -/
theorem events_of_reports {r : Reader} (h : r.found.any Event.isReport = true) :
    r.events.head?.any Event.isReport = true ∧ EndsOnly r.endless.length r.events := by
  cases hstep : r.step? with
  | none =>
    rw [found, hstep] at h
    rw [events_of_none hstep]
    exact ⟨finish_head?_isReport h, r.finish_endsOnly⟩
  | some reading =>
    obtain ⟨events, next⟩ := reading
    rw [found, hstep] at h
    have h : events.any Event.isReport = true := h
    rw [events_of_step? hstep]
    cases step?_reportsLast hstep with
    -- The step that is taken is the one with the report.
    | silent hnone => rw [show events.any Event.isReport = false from hnone] at h; cases h
    | last hrest hfirst hends =>
      obtain ⟨n, hends, hlength⟩ := hends
      -- It left no text, so only the end of the text has something to say after it.
      have hnone : next.step? = none := by rw [step?, show next.rest = [] from hrest]
      rw [events_of_none hnone, hlength]
      refine ⟨?_, hends.append next.finish_endsOnly⟩
      cases events with
      | nil => cases h
      | cons event events => exact hfirst

/-- What is read up to the first piece with a report has none. -/
private theorem events_of_halt?_eq_some {r stop : Reader} (h : r.halt? = some stop) :
    ∃ before, r.events = before ++ stop.events ∧ before.any Event.isReport = false ∧
      stop.found.any Event.isReport = true := by
  fun_induction halt? r with
  | case1 r hreports =>
    obtain rfl := Option.some.inj h
    exact ⟨[], rfl, rfl, hreports⟩
  | case2 r hreports hstep => cases h
  | case3 r hreports events next hstep ih =>
    obtain ⟨before, hevents, hbefore, hstop⟩ := ih h
    refine ⟨events ++ before, ?_, ?_, hstop⟩
    · rw [events_of_step? hstep, hevents, List.append_assoc]
    · rw [found, hstep] at hreports
      rw [List.any_append, hbefore, Bool.or_false]
      exact Bool.eq_false_iff.mpr hreports

/-- Where there is no such piece, nothing is reported at all. -/
private theorem events_of_halt?_eq_none {r : Reader} (h : r.halt? = none) :
    r.events.any Event.isReport = false := by
  fun_induction halt? r with
  | case1 r hreports => cases h
  | case2 r hreports hstep =>
    rw [found, hstep] at hreports
    rw [events_of_none hstep]
    exact Bool.eq_false_iff.mpr hreports
  | case3 r hreports events next hstep ih =>
    rw [found, hstep] at hreports
    rw [events_of_step? hstep, List.any_append, ih h, Bool.or_false]
    exact Bool.eq_false_iff.mpr hreports

end Reader

/-! ## Transcripts -/

namespace Event

/-- Reports are reports in any file. -/
private theorem isReport_inFile (file : Option String) (event : Event) :
    (event.inFile file).isReport = event.isReport := by
  cases event <;> rfl

/-- The tokens of a source in a file are its tokens, in that file. -/
theorem filterMap_token?_inFile (file : Option String) (found : List Event) :
    (found.filterMap token?).map (Token.inFile file) =
      (found.map (inFile file)).filterMap token? := by
  rw [List.map_filterMap, List.filterMap_map]
  congr 1
  funext event
  cases event <;> rfl

/-- A report names its construct and its line. -/
theorem exists_of_isReport {event : Event} (h : event.isReport = true) :
    ∃ what line, event = .unterminated what line := by
  cases event with
  | unterminated what line => exact ⟨what, line, rfl⟩
  | token t => cases h
  | strayEnd line => cases h
  | unclosedBlocks count => cases h

/-- To a lenient reading nothing is a fault. -/
theorem fault?_lenient (file : Option String) (event : Event) : event.fault? false file = none := by
  cases event <;> rfl

end Event

end ScopeTags.Source

namespace ScopeTags

/-- Whether the notice is about a construct that is still open where the text ends. -/
def Notice.isUnterminated : Notice → Bool
  | unterminated .. => true
  | _ => false

end ScopeTags

namespace ScopeTags.Source

section Heeding

variable {found : List Event} (file : Option String)

/-- Only reports are faults. -/
theorem fault?_of_silent (h : found.any Event.isReport = false) :
    ∀ event ∈ found, event.fault? true file = none := by
  intro event hmem
  have hsilent := List.any_eq_false.mp h event hmem
  cases event with
  | unterminated what line => exact absurd rfl hsilent
  | token t => rfl
  | strayEnd line => rfl
  | unclosedBlocks count => rfl

/-- Only reports leave notices of open constructs. -/
private theorem notices_of_silent (h : found.any Event.isReport = false) :
    ∀ notice ∈ found.filterMap (Event.notice? file), ¬notice.isUnterminated = true := by
  intro notice hnotice
  obtain ⟨event, hmem, hevent⟩ := List.mem_filterMap.mp hnotice
  have hsilent := List.any_eq_false.mp h event hmem
  cases event with
  | unterminated what line => exact absurd rfl hsilent
  | token t => cases hevent
  | strayEnd line => cases hevent; simp [Notice.isUnterminated]
  | unclosedBlocks count => cases hevent; simp [Notice.isUnterminated]

/-- Where nothing is a fault, everything is heeded. -/
theorem heeded_eq {strict : Bool} (h : ∀ event ∈ found, event.fault? strict file = none) :
    (found.takeWhile fun event => (event.fault? strict file).isNone) = found := by
  induction found with
  | nil => rfl
  | cons event found ih =>
    rw [List.takeWhile_cons_of_pos (by simp [h event List.mem_cons_self]),
      ih fun event hmem => h event (List.mem_cons_of_mem _ hmem)]

/-- A lenient reading heeds everything. -/
theorem transcribe_lenient (source : String) :
    transcribe false file source =
      { tokens := (eventsIn file source).filterMap Event.token?
        notices := (eventsIn file source).filterMap (Event.notice? file)
        fault := none } := by
  have hnone : ∀ event ∈ eventsIn file source, event.fault? false file = none := fun event _ =>
    event.fault?_lenient file
  simp only [transcribe, heeded_eq file hnone, List.findSome?_eq_none_iff.mpr hnone]

/-- A strict reading that comes upon no report heeds everything too. -/
theorem transcribe_strict_of_silent {source : String}
    (h : (eventsIn file source).any Event.isReport = false) :
    transcribe true file source = transcribe false file source := by
  have hnone := fault?_of_silent file h
  rw [transcribe_lenient]
  simp only [transcribe, heeded_eq file hnone, List.findSome?_eq_none_iff.mpr hnone]

/-- Otherwise it heeds what comes before the first one. -/
private theorem transcribe_strict_of_report {source : String} {before after : List Event}
    {what : Unterminated} {line : Nat}
    (hfound : eventsIn file source = before ++ .unterminated what line :: after)
    (h : before.any Event.isReport = false) :
    (transcribe true file source).tokens = before.filterMap Event.token? ∧
      (transcribe true file source).fault =
        some (.lexical ("Unterminated " ++ what.label) { line := some (line : Int), file }) := by
  have hnone := fault?_of_silent file h
  -- What comes before the report is heeded, and the report is the first fault.
  have htake : (eventsIn file source).takeWhile (fun event => (event.fault? true file).isNone) =
      before := by
    rw [hfound, List.takeWhile_append_of_pos fun event hmem => by rw [hnone event hmem]; rfl,
      List.takeWhile_cons_of_neg (by simp [Event.fault?]), List.append_nil]
  simp only [transcribe, htake, true_and]
  rw [hfound, List.findSome?_append, List.findSome?_eq_none_iff.mpr hnone]
  rfl

end Heeding

/-- Whether something is reported does not depend on the file. -/
theorem eventsIn_any_isReport (file : Option String) (events : List Event) :
    (events.map (Event.inFile file)).any Event.isReport = events.any Event.isReport := by
  rw [List.any_map]
  exact congrArg (List.any events) (funext fun event => event.isReport_inFile file)

/-- The ends of a source in a file stand nowhere in that file. -/
theorem EndsOnly.inFile {n : Nat} {found : List Event} (h : EndsOnly n found)
    (file : Option String) :
    (found.map (Event.inFile file)).filterMap Event.token? =
      List.replicate n (Token.keyword "end" (some .scopeEnd) none ⟨0, 0, file⟩) := by
  rw [← Event.filterMap_token?_inFile, h, List.map_replicate]
  rfl

section Halting

variable {source : String}

/-- Where nothing is reported, the two kinds of reading are one. -/
theorem transcribe_of_halt?_eq_none (file : Option String)
    (h : (Reader.start source.toList).halt? = none) :
    transcribe true file source = transcribe false file source ∧
      ∀ notice ∈ (transcribe false file source).notices, ¬notice.isUnterminated = true := by
  have hsilent := Reader.events_of_halt?_eq_none h
  rw [← eventsIn_any_isReport file] at hsilent
  refine ⟨transcribe_strict_of_silent file hsilent, ?_⟩
  rw [transcribe_lenient]
  exact notices_of_silent file hsilent

/-- Where something is, the lenient reading goes on with ends, and its first notice of a construct
    that is still open is the fault of the strict one. -/
theorem transcribe_of_halt?_eq_some (file : Option String) {stop : Reader}
    (h : (Reader.start source.toList).halt? = some stop) :
    (transcribe false file source).tokens =
        (transcribe true file source).tokens ++ List.replicate stop.endless.length
          (Token.keyword "end" (some .scopeEnd) none ⟨0, 0, file⟩) ∧
      ∃ what line,
        (transcribe false file source).notices.find? Notice.isUnterminated =
          some (.unterminated file line what) ∧
        (transcribe true file source).fault =
          some (.lexical ("Unterminated " ++ what.label) { line := some (line : Int), file }) := by
  obtain ⟨before, hevents, hbefore, hreports⟩ := Reader.events_of_halt?_eq_some h
  obtain ⟨hfirst, hends⟩ := Reader.events_of_reports hreports
  -- The first event from there on is a report.
  obtain ⟨event, hevent, hreport⟩ := (Option.any_eq_true _ _).mp hfirst
  obtain ⟨after, hafter⟩ := List.head?_eq_some_iff.mp hevent
  obtain ⟨what, line, rfl⟩ := Event.exists_of_isReport hreport
  have hwhole : eventsIn file source =
      before.map (Event.inFile file) ++ stop.events.map (Event.inFile file) := by
    rw [eventsIn, events, hevents, List.map_append]
  have hsplit : eventsIn file source =
      before.map (Event.inFile file) ++
        .unterminated what line :: after.map (Event.inFile file) := by
    rw [hwhole, hafter]
    rfl
  rw [← eventsIn_any_isReport file] at hbefore
  obtain ⟨htokens, hfault⟩ := transcribe_strict_of_report file hsplit hbefore
  rw [transcribe_lenient]
  refine ⟨?_, what, line, ?_, hfault⟩
  · rw [htokens, ← hends.inFile file, ← List.filterMap_append, ← hwhole]
  · dsimp only
    rw [hsplit, List.filterMap_append, List.find?_append,
      List.find?_eq_none.mpr (notices_of_silent file hbefore)]
    rfl

end Halting

/-- A strict and a lenient reading of a source.  If the strict one has no fault, both have the same
    tokens.  If it has one, the lenient one has its tokens and after them only ends that stand
    nowhere in the text, one for each endless definition that is open where the strict one stops.
    The strict one has a fault just when the lenient one leaves a notice of a construct that is
    still open where the text ends, and the fault is the first of these constructs with its line. -/
theorem transcribe_strict_lenient (file : Option String) (source : String) :
    let strict : Transcript := transcribe true file source
    let lenient : Transcript := transcribe false file source
    (strict.fault = none → strict.tokens = lenient.tokens) ∧
      (∀ fault, strict.fault = some fault →
        ∃ stop, (Reader.start source.toList).halt? = some stop ∧
          lenient.tokens = strict.tokens ++ List.replicate stop.endless.length
            (Token.keyword "end" (some .scopeEnd) none ⟨0, 0, file⟩)) ∧
      (strict.fault ≠ none ↔ ∃ notice ∈ lenient.notices, notice.isUnterminated = true) ∧
      ∀ fault, strict.fault = some fault →
        ∃ what line,
          lenient.notices.find? Notice.isUnterminated = some (.unterminated file line what) ∧
          fault = .lexical ("Unterminated " ++ what.label) { line := some (line : Int), file } := by
  intro strict lenient
  cases hhalt : (Reader.start source.toList).halt? with
  | none =>
    obtain ⟨hsame, hnotices⟩ := transcribe_of_halt?_eq_none file hhalt
    have hsame : strict = lenient := hsame
    have hnone : strict.fault = none := by
      rw [hsame]
      exact congrArg Transcript.fault (transcribe_lenient file source)
    simp only [hnone]
    refine ⟨fun _ => congrArg Transcript.tokens hsame, by simp, ?_, by simp⟩
    -- Neither is there a fault nor such a notice.
    simp only [ne_eq, not_true_eq_false, false_iff]
    rintro ⟨notice, hmem, hnotice⟩
    exact hnotices notice hmem hnotice
  | some stop =>
    obtain ⟨htokens, what, line, hfind, hfault⟩ := transcribe_of_halt?_eq_some file hhalt
    have hfault : strict.fault = _ := hfault
    have hmem := List.mem_of_find?_eq_some hfind
    simp only [hfault]
    refine ⟨by simp, fun fault _ => ⟨stop, rfl, htokens⟩, ?_, fun fault h => ?_⟩
    · simp only [ne_eq, reduceCtorEq, not_false_eq_true, true_iff]
      exact ⟨_, hmem, rfl⟩
    · exact ⟨what, line, hfind, (Option.some.inj h).symm⟩

/-- The body of an endless definition announces a heredoc and opens a string with an interpolation,
    and the text ends there. -/
theorem transcribe_strict_lenient_nested :
    let source := "def f = g(<<A, \"#\x7bh"
    (transcribe true none source).fault =
        some (.lexical "Unterminated interpolation" { line := some 1 }) ∧
      ∃ stop, (Reader.start source.toList).halt? = some stop ∧ stop.endless.length = 1 ∧
        (transcribe false none source).tokens = (transcribe true none source).tokens ++
          List.replicate stop.endless.length
            (Token.keyword "end" (some .scopeEnd) none ⟨0, 0, none⟩) := by
  intro source
  have hsource : (transcribe true none source).fault =
      some (.lexical "Unterminated interpolation" { line := some 1 }) ∧
      (Reader.start source.toList).halt?.all (·.endless.length = 1) = true := by
    decide +kernel
  obtain ⟨-, hends, -⟩ := transcribe_strict_lenient none source
  obtain ⟨stop, hstop, htokens⟩ := hends _ hsource.1
  have hlength := hsource.2
  rw [hstop] at hlength
  exact ⟨hsource.1, stop, hstop, of_decide_eq_true hlength, htokens⟩

end ScopeTags.Source
