import ScopeTags.Proofs.ScannerPunctuation
import ScopeTags.Proofs.ScopeAccounting

/-!
# A scanner comes to the end of every text for which it has room

An iteration of the main loop reads what one step of the reader reads.  Each step leaves less of the
text to read, so each iteration goes on to a later position, and there are no more of them than the
text has characters.  No iteration asks for a character that is not there.  Two things can go wrong:
a strict reading has a fault, and a literal can nest deeper than calls may.

## Key results

- `iteration_performs`: an iteration is a step of the reader
- `tokenize_within`: the whole scan has the outcome of the reading, if there is room for it
- `Reaches.reached`: after `n` iterations at least `n` characters have been read
- `tokenize_progress`: a scan of any text comes to its end, unless the text nests too deep
- `le_nestingDepth_nestedCode`: there are texts that nest as deep as one likes
-/

namespace ScopeTags.Source

/-- Only a strict reading has a fault, and it is a lexical one. -/
private theorem Event.fault?_eq_some {strict : Bool} {file : Option String} {event : Event}
    {fault : Fault} (h : event.fault? strict file = some fault) :
    strict = true ∧ ∃ reason site, fault = .lexical reason site := by
  cases event with
  | unterminated what line =>
    rw [fault?] at h
    split at h
    · next hstrict => exact ⟨hstrict, _, _, (Option.some.inj h).symm⟩
    · cases h
  | token _ => cases h
  | strayEnd _ => cases h
  | unclosedBlocks _ => cases h

namespace Scanning

open Source.Scanner

variable {s : Scanner} {c : Char}

/-! ## One iteration -/

/-- A backslash before a newline joins two lines. -/
private theorem continuation_performs (h : s.Sound) (hnext : s.source[s.pos + 1]? = some '\n') :
    Performs s ([], s.view.moveTo (s.view.toCursor.hop 1).nextLine) ()
      ((do
        goTo (s.pos + 2)
        beginLine) s) := by
  have hlt : s.pos + 1 < s.source.length := (List.getElem?_eq_some_iff.mp hnext).1
  have hsound : s.SoundAt (s.pos + 1) := h.of_le (by omega) (by omega)
  have hfind : s.find? '\n' (s.pos + 1) = some (s.pos + 1) := by
    rw [find?, drop_eq_cons hnext, List.findIdx?_cons]
    simp
  have hline : (s.view.toCursor.hop 1).nextLine
      = { s with line := s.line + 1, lineStart := s.pos + 2 }.cursorAt (s.pos + 2) := by
    rw [← nextLine_of_find?_eq_some hsound hfind, cursorAt_add h]
    rfl
  have hlast : { s with
      pos := s.pos + 2, line := s.line + 1, lineStart := s.pos + 2 }.Sound :=
    ⟨Nat.le_refl _, hlt, Nat.succ_le_succ (Nat.le_of_lt hlt)⟩
  rw [hline]
  exact .done rfl (follows_nil rfl rfl rfl rfl rfl) hlast rfl

/-- What stands at the position is read. -/
private theorem scanAt_performs (h : s.Sound) (hc : s.source[s.pos]? = some c) :
    PerformsAt s (s.view.depthAt c (s.source.drop (s.pos + 1)))
      (s.view.read c (s.source.drop (s.pos + 1))) () (scanAt c s) := by
  have hpos : s.pos < s.source.length := (List.getElem?_eq_some_iff.mp hc).1
  have hsound : s.SoundAt (s.pos + 1) := h.of_le (by omega) (by omega)
  rw [scanAt, bind_run, get_run, andThen_ok, Reader.read, List.head?_drop]
  simp only [ite_run, startsAt_singleton]
  -- The cases come in the same order in both, and only punctuation makes calls.
  split
  · next hnewline =>
    subst hnewline
    exact (scanNewline_performs h hc).within rfl
  split
  · next hgap =>
    rw [goTo_run, ← view_goTo h]
    refine Performs.within ?_ (Reader.depthAt_of_class hgap rfl _)
    exact .done rfl (follows_nil rfl rfl rfl rfl rfl) hsound rfl
  split
  · next hbackslash =>
    obtain ⟨rfl, hnext⟩ := hbackslash
    exact (continuation_performs h hnext).within rfl
  split
  · next hcomment =>
    subst hcomment
    exact (scanComment_performs h hpos).within rfl
  split
  · next hword =>
    exact (scanWord_performs h hc hword).within (Reader.depthAt_of_class hword rfl _)
  · exact scanPunctuation_performs h hc

/-- The first column is where the line starts. -/
theorem column_eq_zero_iff (h : s.Sound) (hpos : s.pos < s.source.length) :
    s.view.column = 0 ↔ s.pos = s.lineStart := by
  have hle := h.lineStart_le
  show min s.pos s.source.length - s.lineStart = 0 ↔ _
  omega

/-- The marker that ends the program, asked for at the position. -/
private theorem atEndMarker_eq (s : Scanner) : s.atEndMarker = startsEndMarker s.view.rest := by
  rw [atEndMarker, startsEndMarker, rest_view, List.getElem?_drop]
  rfl

/-- An embedded document starts for the scanner where it does for the reader. -/
private theorem atEmbeddedDocument_eq (s : Scanner) :
    s.atEmbeddedDocument = startsDocument s.view.rest := by
  rw [atEmbeddedDocument, startsDocument, rest_view, List.getElem?_drop]
  rfl

/-- An embedded document starts with an equals sign. -/
private theorem stepDepth_of_startsDocument {r : Reader} (h : startsDocument r.rest) :
    r.stepDepth = 0 := by
  rw [startsDocument, Bool.and_eq_true] at h
  obtain ⟨cs, hcs⟩ := List.isPrefixOf_iff_prefix.mp h.1
  rw [Reader.stepDepth, ← hcs]
  rfl

/-- The marker that ends the program starts with an underscore. -/
private theorem stepDepth_of_startsEndMarker {r : Reader} (h : startsEndMarker r.rest) :
    r.stepDepth = 0 := by
  rw [startsEndMarker, Bool.and_eq_true] at h
  obtain ⟨cs, hcs⟩ := List.isPrefixOf_iff_prefix.mp h.1
  rw [Reader.stepDepth, ← hcs]
  rfl

/-- The reader at the position goes by the same conditions. -/
private theorem step?_view (h : s.Sound) (hc : s.source[s.pos]? = some c) :
    s.view.step? = if s.pos = s.lineStart ∧ s.atEndMarker then none
      else if s.pos = s.lineStart ∧ s.atEmbeddedDocument then
        some ((skipDocument s.view.toCursor).2, s.view.moveTo (skipDocument s.view.toCursor).1)
      else some (s.view.read c (s.source.drop (s.pos + 1))) := by
  have hpos : s.pos < s.source.length := (List.getElem?_eq_some_iff.mp hc).1
  have hrest : s.view.rest = c :: s.source.drop (s.pos + 1) := drop_eq_cons hc
  rw [Reader.step?.eq_def, hrest]
  simp only [column_eq_zero_iff h hpos, ← hrest, ← atEndMarker_eq, ← atEmbeddedDocument_eq]

/-- An iteration stops where the reader does. -/
private theorem iteration_of_none (h : s.Sound) (hpos : s.pos < s.source.length)
    (hstep : s.view.step? = none) : iteration s = some (.ok false, s) := by
  rw [step?_view h (List.getElem?_eq_getElem hpos)] at hstep
  rw [iteration, bind_run, get_run, andThen_ok, ite_run]
  split at hstep
  · next hmarker => rw [if_pos hmarker, pure_run]
  · split at hstep <;> cases hstep

/-- An iteration does what one step of the reader does. -/
theorem iteration_performs {found : List Event} {next : Reader} (h : s.Sound)
    (hpos : s.pos < s.source.length) (hstep : s.view.step? = some (found, next)) :
    PerformsAt s s.view.stepDepth (found, next) true (iteration s) := by
  have hc := List.getElem?_eq_getElem hpos
  rw [step?_view h hc] at hstep
  rw [iteration, bind_run, get_run, andThen_ok, ite_run]
  split at hstep
  · cases hstep
  · next hmarker =>
    rw [if_neg hmarker, ite_run]
    split at hstep
    · next hdocument =>
      -- An embedded document is passed over in one iteration.
      cases hstep
      rw [if_pos hdocument, bind_run]
      rw [atEmbeddedDocument_eq] at hdocument
      refine Performs.within ?_ (stepDepth_of_startsDocument hdocument.2)
      refine (skipEmbeddedDocument_performs h hpos).bind_last fun s' _ sound hview => ?_
      rw [← hview]
      exact .done rfl (follows_nil rfl rfl rfl rfl rfl) sound rfl
    · next hdocument =>
      have hrest : s.view.rest = s.source[s.pos] :: s.source.drop (s.pos + 1) := drop_eq_cons hc
      have hread : PerformsAt s s.view.stepDepth (found, next) () (scanAt s.source[s.pos] s) := by
        rw [← Option.some.inj hstep, Reader.stepDepth, hrest]
        exact scanAt_performs h hc
      rw [if_neg hdocument, bind_run, charAt_run hc, andThen_ok, bind_run]
      refine hread.bind_last fun hperforms => hperforms.bind_last fun s' _ sound hview => ?_
      rw [← hview]
      exact .done rfl (follows_nil rfl rfl rfl rfl rfl) sound rfl

/-! ## The whole text -/

/-- What a scan comes to whose first fault is given. -/
def verdict : Option Fault → Except Stop Unit
  | some fault => .error (.fault fault)
  | none => .ok ()

/-- Steps that bring up `events` up to the first fault among them, if there is one. -/
def Concludes (s : Scanner) (events : List Event) (x : Outcome Unit) : Prop :=
  ∃ last : Scanner, x = some (verdict (s.fault? events), last) ∧ s.Follows (s.heeded events) last

section Concludes

variable {s' : Scanner} {found events : List Event} {x : Outcome Unit}

/-- Steps that come after events that are no fault. -/
theorem Concludes.prepend (quiet : s.fault? found = none) (follows : s.Follows found s')
    (h : Concludes s' events x) : Concludes s (found ++ events) x := by
  obtain ⟨last, hx, hlast⟩ := h
  refine ⟨last, ?_, ?_⟩
  · rw [hx, follows.fault?_eq, fault?_append, quiet, Option.none_or]
  · rw [heeded_append_of_quiet quiet, ← follows.heeded_eq]
    exact follows.trans hlast

/-- Steps that a fault has ended, whatever would have come after it. -/
private theorem Concludes.of_fault {fault : Fault} (hfault : s.fault? found = some fault)
    (follows : s.Follows (s.heeded found) s') (events : List Event) :
    Concludes s (found ++ events) (some (.error (.fault fault), s')) := by
  refine ⟨s', ?_, ?_⟩
  · rw [fault?_append, hfault, Option.some_or]
    rfl
  · rwa [heeded_append_of_fault hfault]

end Concludes

/-- Every endless definition that is open at the end is closed. -/
private theorem closeAllEndless_run (s : Scanner) :
    closeAllEndless s = some (.ok (), { s with
      endless := []
      emitted := s.emitted ++ s.endless.map fun _ => Reader.impliedEnd.inFile s.file }) := by
  rw [closeAllEndless, bind_run, get_run, andThen_ok]
  -- By induction on the definitions, of which each round takes the innermost one away.
  induction hn : s.endless generalizing s with
  | nil =>
    rw [closeAllEndlessOf, List.map_nil, List.append_nil, ← hn]
    rfl
  | cons depth endless ih =>
    rw [closeAllEndlessOf, bind_run, popEndless_run hn, andThen_ok, bind_run, emitEnd_run,
      andThen_ok, ih _ rfl, List.map_cons]
    simp

/-- Open blocks are reported by their number. -/
private theorem reportBlocks_concludes (s : Scanner) :
    Concludes s (if s.blocks.isEmpty then [] else [.unclosedBlocks s.blocks.length])
      (reportBlocks s) := by
  rw [reportBlocks, bind_run, get_run, andThen_ok, ite_run]
  split
  · exact ⟨s, rfl, follows_nil rfl rfl rfl rfl rfl⟩
  · exact ⟨_, rfl, rfl, rfl, rfl, rfl, rfl⟩

/-- The ends of endless definitions and the remark on open blocks are no faults. -/
private theorem closing_concludes (s : Scanner) :
    Concludes s (s.endless.map (fun _ => Reader.impliedEnd)
        ++ if s.blocks.isEmpty then [] else [.unclosedBlocks s.blocks.length])
      ((do
        closeAllEndless
        reportBlocks) s) := by
  have quiet : s.fault? (s.endless.map fun _ => Reader.impliedEnd) = none := by
    rw [fault?, List.findSome?_eq_none_iff]
    intro event hevent
    obtain ⟨_, _, rfl⟩ := List.mem_map.mp hevent
    rfl
  let closed : Scanner := { s with
    endless := []
    emitted := s.emitted ++ s.endless.map fun _ => Reader.impliedEnd.inFile s.file }
  have follows : s.Follows (s.endless.map fun _ => Reader.impliedEnd) closed :=
    ⟨rfl, rfl, rfl, rfl, by rw [List.map_map]; rfl⟩
  rw [bind_run, closeAllEndless_run, andThen_ok]
  exact .prepend quiet follows (reportBlocks_concludes closed)

/-- A construct that is still open ends a strict scan, and a lenient one goes on. -/
private theorem unterminated_concludes {what : Unterminated} {line : Nat} {events : List Event}
    {m : Scanning Unit} (hm : ∀ s' : Scanner, s'.view = s.view → Concludes s' events (m s')) :
    Concludes s ([.unterminated what line] ++ events)
      (Outcome.andThen (unterminated what line s) fun _ => m) := by
  rw [unterminated, bind_run, get_run, andThen_ok, ite_run]
  by_cases hstrict : s.strict = true
  · rw [if_pos hstrict]
    exact .of_fault (by simp [fault?, Event.fault?, hstrict])
      ⟨rfl, rfl, rfl, rfl, by simp [heeded, Event.fault?, hstrict]⟩ events
  · let reported : Scanner := { s with emitted := s.emitted ++ [.unterminated what line] }
    have follows : s.Follows [.unterminated what line] reported := ⟨rfl, rfl, rfl, rfl, rfl⟩
    rw [if_neg hstrict]
    exact .prepend (by simp [fault?, Event.fault?, hstrict]) follows (hm reported rfl)

/-- What is left to say where the text ends is said. -/
private theorem finish_concludes (s : Scanner) : Concludes s s.view.finish (finish s) := by
  rw [finish, bind_run, reportHeredoc, bind_run, get_run, andThen_ok, ite_run, Reader.finish,
    List.append_assoc]
  show Concludes s ((s.heredocs.head?.map _).toList ++ _) _
  -- Only the first of the heredocs that wait is reported.
  cases s.heredocs with
  | nil => exact closing_concludes s
  | cons heredoc heredocs =>
    rw [if_neg (show ¬(heredoc :: heredocs).isEmpty = true by simp), bind_run,
      item_run (show (heredoc :: heredocs)[0]? = some heredoc from rfl), andThen_ok]
    refine unterminated_concludes fun s' hview => ?_
    rw [← hview]
    exact closing_concludes s'

/-- A step that reports a fault leaves no text. -/
private theorem rest_of_fault {found : List Event} {next : Reader} {fault : Fault}
    (hstep : s.view.step? = some (found, next)) (hfault : s.fault? found = some fault) :
    next.rest = [] := by
  cases Reader.step?_reportsLast hstep with
  | last rest_eq _ _ => exact rest_eq
  | silent none_reported =>
    obtain ⟨event, hmem, hevent⟩ := List.exists_of_findSome?_eq_some hfault
    obtain ⟨hstrict, -⟩ := Event.fault?_eq_some hevent
    rw [hstrict, fault?_of_silent s.file none_reported event hmem] at hevent
    cases hevent

/-- What is left of the main loop and what comes after it bring up what the reader does, if there is
    room for it. -/
private theorem mainLoopFor_within {fuel : Nat} (h : s.Sound)
    (hfuel : s.source.length - s.pos < fuel) :
    Within s s.limit s.view.nestingDepth (Concludes s s.view.events)
      (Outcome.andThen (mainLoopFor fuel s) fun _ => finish) := by
  -- By induction on the fuel.  An iteration leaves less text, so the fuel suffices for the rest.
  induction fuel generalizing s with
  | zero => omega
  | succ fuel ih =>
    rw [mainLoopFor, bind_run, get_run, andThen_ok, ite_run]
    by_cases hpos : s.pos < s.source.length
    · rw [if_pos hpos, bind_run, andThen_assoc]
      cases hstep : s.view.step? with
      | none =>
        rw [iteration_of_none h hpos hstep, andThen_ok, Reader.events_of_none hstep,
          Reader.nestingDepth_of_none hstep]
        exact .fits (Nat.zero_le _) (finish_concludes s)
      | some reading =>
        obtain ⟨found, next⟩ := reading
        have hiteration := iteration_performs h hpos hstep
        generalize iteration s = x at hiteration
        rw [Reader.events_of_step? hstep, Reader.nestingDepth_of_step? hstep]
        refine hiteration.bind fun hperforms => ?_
        cases hperforms with
        | @done s' quiet follows sound view =>
          have hview : s'.view = next := view
          have hless : s'.source.length - s'.pos < fuel := by
            have hlt := Reader.step?_shorter hstep
            rw [← hview, rest_view, rest_view, List.length_drop, List.length_drop] at hlt
            omega
          have hnext := ih sound hless
          rw [follows.limit, hview] at hnext
          rw [andThen_ok, if_pos rfl, bind_run]
          exact hnext.prepend follows (.prepend quiet follows)
        -- The fault has come at the end of the text, after which the reader takes no step.
        | failed fault_eq follows _ _ =>
          have hnone : next.step? = none := by rw [Reader.step?, rest_of_fault hstep fault_eq]
          rw [Reader.nestingDepth_of_none hnone]
          exact .fits (Nat.zero_le _) (.of_fault fault_eq follows _)
    · have hrest : s.view.rest = [] := List.drop_eq_nil_of_le (Nat.le_of_not_lt hpos)
      have hstep : s.view.step? = none := by rw [Reader.step?, hrest]
      rw [if_neg hpos, pure_run, andThen_ok, Reader.events_of_none hstep,
        Reader.nestingDepth_of_none hstep]
      exact .fits (Nat.zero_le _) (finish_concludes s)

/-- The main loop and what comes after it bring up what the reader does, if there is room for it. -/
theorem tokenize_within (h : s.Sound) :
    Within s s.limit s.view.nestingDepth (Concludes s s.view.events) (tokenize s) := by
  rw [tokenize, bind_run, mainLoop, loop_run]
  exact mainLoopFor_within h (by omega)

end Scanning

/-! ## Progress -/

/-- How steps from `s` on end that take `depth` calls at once, where there is room for `room`: with
    a result and a scanner `t` on the same text, the position of which is sound.  They are given up
    where there is not enough room, and the only fault is that of a strict scan. -/
structure Scanner.Ends {α : Type} (s : Scanner) (room depth : Nat) (x : Outcome α)
    (result : Except Stop α) (t : Scanner) : Prop where
  eq_some : x = some (result, t)
  source_eq : t.source = s.source
  limit_eq : t.limit = s.limit
  sound : t.Sound
  tooDeep_iff : result = .error .tooDeep ↔ room < depth
  lexical : ∀ fault, result = .error (.fault fault) →
    s.strict = true ∧ ∃ reason site, fault = .lexical reason site

namespace Scanner

variable {s t t' : Scanner} {n : Nat}

/-- The fault among some events is that of a strict scan. -/
private theorem fault?_eq_some {events : List Event} {fault : Fault}
    (h : s.fault? events = some fault) :
    s.strict = true ∧ ∃ reason site, fault = .lexical reason site := by
  obtain ⟨event, -, hevent⟩ := List.exists_of_findSome?_eq_some h
  exact Event.fault?_eq_some hevent

/-- Steps after which no more is left to read than from `i` on end at `i` or further on. -/
private theorem ends_of_within {α : Type} {a : α} {reading : Reading} {x : Outcome α}
    {i room depth : Nat} (h : Within s room depth (Performs s reading a) x)
    (hi : i ≤ s.source.length) (hrest : reading.2.rest.length ≤ s.source.length - i) :
    ∃ result t, s.Ends room depth x result t ∧ (depth ≤ room → i ≤ t.pos) ∧
      ∀ b, result = .ok b → b = a := by
  -- Given up, done, or failed: in all three cases the scanner is in the text.
  cases h with
  | @tooDeep t lt source limit sound =>
    refine ⟨.error .tooDeep, t, ⟨rfl, source, limit, sound, iff_of_true rfl lt, ?_⟩, ?_, ?_⟩
    · rintro _ ⟨⟩
    · intro hle
      omega
    · rintro _ ⟨⟩
  | fits le performs =>
    cases performs with
    | @done t quiet follows sound view =>
      refine ⟨.ok a, t, ⟨rfl, follows.source, follows.limit, sound, ?_, ?_⟩, ?_, ?_⟩
      · exact iff_of_false (by intro h; cases h) (Nat.not_lt_of_le le)
      · rintro _ ⟨⟩
      · intro _
        rw [← view, rest_view, List.length_drop, follows.source] at hrest
        omega
      · rintro _ ⟨⟩
        rfl
    | @failed t fault fault_eq follows sound atEnd =>
      -- A fault comes where the text ends, and `i` is not past the end.
      refine ⟨.error (.fault fault), t,
        ⟨rfl, follows.source, follows.limit, sound, ?_, ?_⟩, ?_, ?_⟩
      · exact iff_of_false (by intro h; cases h) (Nat.not_lt_of_le le)
      · rintro _ ⟨⟩
        exact fault?_eq_some fault_eq
      · intro _
        rw [follows.source] at atEnd
        omega
      · rintro _ ⟨⟩

/-- An iteration stops at the marker that ends the program or goes on to a later position. -/
private theorem iteration_ends (h : s.Sound) (hpos : s.pos < s.source.length) :
    ∃ result t, s.Ends s.limit s.view.stepDepth (Scanning.iteration s) result t ∧
      (result = .ok false ∧ t = s ∧ s.pos = s.lineStart ∧ s.atEndMarker = true ∨
        result ≠ .ok false ∧ (s.view.stepDepth ≤ s.limit → s.pos < t.pos)) := by
  cases hstep : s.view.step? with
  | none =>
    -- Before the end of the text the reader stops at the marker only.
    have hmarker : s.pos = s.lineStart ∧ s.atEndMarker = true := by
      rw [Scanning.step?_view h (List.getElem?_eq_getElem hpos)] at hstep
      split at hstep
      · next hmarker => exact hmarker
      · split at hstep <;> cases hstep
    have hdepth : s.view.stepDepth = 0 := by
      rw [Scanning.atEndMarker_eq] at hmarker
      exact Scanning.stepDepth_of_startsEndMarker hmarker.2
    refine ⟨.ok false, s, ⟨Scanning.iteration_of_none h hpos hstep, rfl, rfl, h, ?_, ?_⟩,
      .inl ⟨rfl, rfl, hmarker⟩⟩
    · exact iff_of_false (by intro h; cases h) (by omega)
    · rintro _ ⟨⟩
  | some reading =>
    obtain ⟨found, next⟩ := reading
    -- A step of the reader leaves less to read.
    have hrest : next.rest.length ≤ s.source.length - (s.pos + 1) := by
      have hlt := Reader.step?_shorter hstep
      rw [rest_view, List.length_drop] at hlt
      omega
    obtain ⟨result, t, hends, hlt, htrue⟩ :=
      ends_of_within (Scanning.iteration_performs h hpos hstep) hpos hrest
    refine ⟨result, t, hends, .inr ⟨?_, hlt⟩⟩
    rintro rfl
    cases htrue false rfl

/-- The scanner is `t` after `n` iterations of the main loop from `s` on. -/
inductive Reaches (s : Scanner) : Nat → Scanner → Prop
  | start : s.Reaches 0 s
  | next {n : Nat} {t t' : Scanner} (reaches : s.Reaches n t) (hpos : t.pos < t.source.length)
      (hiteration : Scanning.iteration t = some (.ok true, t')) : s.Reaches (n + 1) t'

/-- What holds after `n` iterations. -/
structure Reached (s : Scanner) (n : Nat) (t : Scanner) : Prop where
  source_eq : t.source = s.source
  limit_eq : t.limit = s.limit
  sound : t.Sound
  le_pos : s.pos + n ≤ t.pos
  le_length : n ≤ s.source.length

/-- An iteration that ends with a value has gone on. -/
private theorem lt_of_iteration (h : s.Sound) (hpos : s.pos < s.source.length)
    (hiteration : Scanning.iteration s = some (.ok true, t)) :
    t.source = s.source ∧ t.limit = s.limit ∧ t.Sound ∧ s.pos < t.pos := by
  obtain ⟨result, t', hends, hcases⟩ := iteration_ends h hpos
  obtain ⟨rfl, rfl⟩ := Prod.mk.inj (Option.some.inj (hiteration.symm.trans hends.eq_some))
  have hlt := hcases.resolve_left fun hstop => by cases hstop.1
  have hfits : s.view.stepDepth ≤ s.limit :=
    Nat.le_of_not_lt fun hdeep => by cases hends.tooDeep_iff.mpr hdeep
  exact ⟨hends.source_eq, hends.limit_eq, hends.sound, hlt.2 hfits⟩

/-- After `n` iterations at least `n` characters have been read. -/
theorem Reaches.reached (h : s.Sound) (hreaches : s.Reaches n t) : s.Reached n t := by
  -- By induction on the iterations, each of which has gone on by one character at least.
  induction hreaches with
  | start => exact ⟨rfl, rfl, h, Nat.le_refl _, Nat.zero_le _⟩
  | next _ hpos hiteration ih =>
    obtain ⟨hsource, hlimit, hsound, hlt⟩ := lt_of_iteration ih.sound hpos hiteration
    have hle := ih.le_pos
    rw [ih.source_eq] at hpos
    exact ⟨hsource.trans ih.source_eq, hlimit.trans ih.limit_eq, hsound, by omega, by omega⟩

/-- One iteration and then `n` others. -/
theorem Reaches.head (hpos : s.pos < s.source.length)
    (hiteration : Scanning.iteration s = some (.ok true, t)) (h : t.Reaches n t') :
    s.Reaches (n + 1) t' := by
  induction h with
  | start => exact .next .start hpos hiteration
  | next _ hpos' hiteration' ih => exact .next ih hpos' hiteration'

/-- The main loop ends at `t`, which is at the end of the text, or with one more iteration. -/
inductive Halts (t : Scanner) : Outcome Unit → Prop
  | atEnd (hend : t.source.length ≤ t.pos) : t.Halts (some (.ok (), t))
  | stops {t' : Scanner} (hpos : t.pos < t.source.length)
      (hiteration : Scanning.iteration t = some (.ok false, t')) : t.Halts (some (.ok (), t'))
  | fails {t' : Scanner} {stop : Stop} (hpos : t.pos < t.source.length)
      (hiteration : Scanning.iteration t = some (.error stop, t')) :
      t.Halts (some (.error stop, t'))

/-- The main loop is some iterations, after which it ends by itself and not for want of fuel. -/
private theorem mainLoopFor_halts {fuel : Nat} (h : s.Sound)
    (hfuel : s.source.length - s.pos < fuel) :
    ∃ n t, s.Reaches n t ∧ t.Halts (Scanning.mainLoopFor fuel s) := by
  induction fuel generalizing s with
  | zero => omega
  | succ fuel ih =>
    rw [Scanning.mainLoopFor, Scanning.bind_run, Scanning.get_run, Scanning.andThen_ok,
      Scanning.ite_run]
    by_cases hpos : s.pos < s.source.length
    · obtain ⟨result, t, hends, -⟩ := iteration_ends h hpos
      have hiteration := hends.eq_some
      rw [if_pos hpos, Scanning.bind_run, hiteration]
      cases result with
      | error stop => exact ⟨0, s, .start, .fails hpos hiteration⟩
      | ok again =>
        cases again with
        | false => exact ⟨0, s, .start, .stops hpos hiteration⟩
        | true =>
          -- The position is a later one, so there is fuel for what is left.
          obtain ⟨hsource, -, hsound, hlt⟩ := lt_of_iteration h hpos hiteration
          obtain ⟨n, t', hreaches, hhalts⟩ := ih hsound (by rw [hsource]; omega)
          exact ⟨n + 1, t', hreaches.head hpos hiteration, hhalts⟩
    · rw [if_neg hpos]
      exact ⟨0, s, .start, .atEnd (Nat.le_of_not_lt hpos)⟩

/-- Whatever is skipped from the position on, the scanner does not go back.  From one past the end
    of the text it would: a literal that is not closed ends at the end. -/
theorem Skips.ends {room : Nat} {frames : List Frame} {x : Outcome Unit}
    (h : s.Skips room id frames s.pos x) (hpos : s.pos ≤ s.source.length) :
    ∃ result t, s.Ends room (s.skimDepth frames s.pos) x result t ∧
      (s.skimDepth frames s.pos ≤ room → s.pos ≤ t.pos) := by
  have hrest : (s.skim frames s.pos).1.rest.length ≤ s.source.length - s.pos := by
    rw [skim, ← List.length_drop]
    exact length_rest_skipFrames_le _ _ _
  obtain ⟨result, t, hends, hle, -⟩ := ends_of_within h hpos hrest
  exact ⟨result, t, hends, hle⟩

/-! ## The whole scan -/

section Start

variable (limit : Nat) (strict : Bool) (file : Option String) (source : String)

/-- The position at the start is sound. -/
theorem start_sound : (start limit strict file source).Sound :=
  ⟨Nat.le_refl 0, Nat.zero_le _, Nat.zero_le _⟩

/-- The fault of a scan is that of the transcript. -/
private theorem fault?_start :
    (start limit strict file source).fault? (events source)
      = (transcribe strict file source).fault := by
  show (events source).findSome? _ = ((events source).map _).findSome? _
  rw [List.findSome?_map]
  congr 1
  funext event
  exact (Event.fault?_inFile file strict event).symm

/-- Its events are those before the fault. -/
private theorem map_heeded_start :
    ((start limit strict file source).heeded (events source)).map (Event.inFile file)
      = (eventsIn file source).takeWhile fun event => (event.fault? strict file).isNone := by
  rw [eventsIn, List.takeWhile_map, heeded]
  congr 2
  funext event
  exact congrArg Option.isNone (Event.fault?_inFile file strict event).symm

end Start

/-- What a scan comes to of which the transcript is given, if there is one. -/
def conclusion : Option Transcript → Except Stop Unit
  | some transcript => Scanning.verdict transcript.fault
  | none => .error .tooDeep

/-- A scan of a whole text has an outcome, the transcript of the text if there is room for it. -/
private theorem tokenize_start (limit : Nat) (strict : Bool) (file : Option String)
    (source : String) : ∃ last : Scanner,
      Scanning.tokenize (start limit strict file source)
          = some (conclusion (transcribeWithin limit strict file source), last)
        ∧ ∀ transcript ∈ transcribeWithin limit strict file source,
          last.emitted.filterMap Event.token? = transcript.tokens
            ∧ last.emitted.filterMap (Event.notice? file) = transcript.notices := by
  have hwithin : Within (start limit strict file source) limit (nestingDepth source)
      (Scanning.Concludes (start limit strict file source) (events source))
      (Scanning.tokenize (start limit strict file source)) :=
    Scanning.tokenize_within (start_sound limit strict file source)
  generalize Scanning.tokenize (start limit strict file source) = x at hwithin
  rw [transcribeWithin]
  -- There is room for the text or not.
  cases hwithin with
  | tooDeep lt _ _ _ =>
    rw [if_neg (Nat.not_le_of_lt lt)]
    exact ⟨_, rfl, by rintro _ ⟨⟩⟩
  | fits le concludes =>
    obtain ⟨last, rfl, hfollows⟩ := concludes
    have hemitted : last.emitted
        = (eventsIn file source).takeWhile fun event => (event.fault? strict file).isNone := by
      rw [← map_heeded_start limit]
      exact hfollows.emitted
    rw [if_pos le]
    refine ⟨last, ?_, ?_⟩
    · rw [fault?_start]
      rfl
    · rintro _ ⟨⟩
      rw [hemitted]
      exact ⟨rfl, rfl⟩

end Scanner

/-- A scan of any text comes to its end, unless the text nests deeper than calls may.  An iteration
    of the main loop stops at the marker that ends the program, is given up for want of room, or
    goes on to a later position, which is sound, so that there are no more iterations than
    characters, however much fuel there is.  Neither function that skips literals goes back.  No
    character is asked for that is not there, since the only fault is that of a strict reading. -/
theorem tokenize_progress (limit : Nat) (strict : Bool) (file : Option String) (source : String) :
    let s : Scanner := .start limit strict file source
    (∀ n t, s.Reaches n t → t.pos < t.source.length →
      n < source.length ∧ ∃ result t',
        t.Ends limit t.view.stepDepth (Scanning.iteration t) result t' ∧
        (result = .ok false ∧ t' = t ∧ t.pos = t.lineStart ∧ t.atEndMarker = true ∨
          result ≠ .ok false ∧ (t.view.stepDepth ≤ limit → t.pos < t'.pos))) ∧
    (∀ fuel, source.length < fuel →
      ∃ n t, n ≤ source.length ∧ s.Reaches n t ∧ t.Halts (Scanning.mainLoopFor fuel s)) ∧
    (∀ (t : Scanner) (room : Nat), t.Sound → t.pos ≤ t.source.length →
      (∀ close opener interpolates,
        let depth := t.skimDepth [.body close opener interpolates 0 t.line] t.pos
        ∃ result t',
          t.Ends (room + 1) depth (Scanning.skipDelimited close opener interpolates room t)
            result t'
            ∧ (depth ≤ room + 1 → t.pos ≤ t'.pos)) ∧
      let depth := t.skimDepth [.interpolation 0 t.line] t.pos
      ∃ result t', t.Ends (room + 1) depth (Scanning.skipInterpolation room t) result t' ∧
        (depth ≤ room + 1 → t.pos ≤ t'.pos)) ∧
    (∃ last : Scanner,
      Scanning.tokenize s
          = some (Scanner.conclusion (transcribeWithin limit strict file source), last) ∧
      ∀ transcript ∈ transcribeWithin limit strict file source,
        last.emitted.filterMap Event.token? = transcript.tokens ∧
        last.emitted.filterMap (Event.notice? file) = transcript.notices) ∧
    (transcribeWithin limit strict file source = none ↔ limit < nestingDepth source) ∧
    ∀ transcript ∈ transcribeWithin limit strict file source, ∀ fault ∈ transcript.fault,
      strict = true ∧ ∃ reason site, fault = .lexical reason site := by
  intro s
  have hs : s.Sound := Scanner.start_sound limit strict file source
  have hlength : s.source.length = source.length := String.length_toList
  -- What is left: single iterations, the loop, literals, when there is no room, and faults.
  refine ⟨?_, ?_, ?_, Scanner.tokenize_start limit strict file source, ?_, ?_⟩
  · intro n t hreaches hpos
    have hreached := hreaches.reached hs
    have hle : 0 + n ≤ t.pos := hreached.le_pos
    have hlimit : t.limit = limit := hreached.limit_eq
    have hends := Scanner.iteration_ends hreached.sound hpos
    rw [hreached.source_eq, hlength] at hpos
    rw [hlimit] at hends
    exact ⟨by omega, hends⟩
  · intro fuel hfuel
    have hleft : s.source.length - s.pos < fuel := by omega
    obtain ⟨n, t, hreaches, hhalts⟩ := Scanner.mainLoopFor_halts hs hleft
    exact ⟨n, t, hlength ▸ (hreaches.reached hs).le_length, hreaches, hhalts⟩
  · intro t room ht hpos
    refine ⟨fun close opener interpolates => ?_, ?_⟩
    · exact (Scanning.skipDelimited_skips close opener interpolates ht room).ends hpos
    · exact (Scanning.skipInterpolation_skips ht room).ends hpos
  · rw [transcribeWithin]
    split
    · next hle => exact iff_of_false (by intro h; cases h) (Nat.not_lt_of_le hle)
    · next hlt => exact iff_of_true rfl (Nat.lt_of_not_le hlt)
  · intro transcript htranscript fault hfault
    rw [transcribeWithin] at htranscript
    split at htranscript
    · cases htranscript
      rw [Option.mem_def, ← Scanner.fault?_start limit] at hfault
      exact Scanner.fault?_eq_some hfault
    · cases htranscript

/-- A string is open at the end of the text, and so are the code in it and a string in that code,
    which ends with a backslash.  There is room for three calls, and no more than that. -/
theorem tokenize_progress_open_literals :
    let source := "a \"#\x7b'\\"
    let s : Scanner := .start 3 true none source
    let t : Scanner := { s with pos := 3 }
    let fault : Fault := .lexical "Unterminated literal" ⟨some 1, none, none⟩
    (s.Reaches 0 s ∧ s.pos < s.source.length ∧
      ∃ result t', s.Ends 3 0 (Scanning.iteration s) result t' ∧ s.pos < t'.pos) ∧
    (∃ n t, n ≤ source.length ∧ s.Reaches n t ∧ t.Halts (Scanning.mainLoopFor 8 s)) ∧
    (t.Sound ∧ t.pos ≤ t.source.length ∧
      (∃ result t', t.Ends 3 3 (Scanning.skipDelimited '"' none true 2 t) result t' ∧
        t.pos ≤ t'.pos) ∧
      ∃ result t', t.Ends 2 3 (Scanning.skipDelimited '"' none true 1 t) result t') ∧
    (∃ last, Scanning.tokenize s = some (.error (.fault fault), last)) ∧
    transcribeWithin 2 true none source = none ∧
    ∃ transcript ∈ transcribeWithin 3 true none source, transcript.fault = some fault ∧
      ∃ reason site, fault = .lexical reason site := by
  intro source s t fault
  have hpos : s.pos < s.source.length := by decide
  have hsound : t.Sound := ⟨Nat.zero_le 3, Nat.zero_le _, by decide⟩
  obtain ⟨hdepth, hstep, hskim, hfault⟩ : nestingDepth source = 3 ∧ s.view.stepDepth = 0 ∧
      t.skimDepth [.body '"' none true 0 1] t.pos = 3 ∧
      (transcribe true none source).fault = some fault := by decide +kernel
  have hwithin : transcribeWithin 3 true none source = some (transcribe true none source) :=
    if_pos (Nat.le_of_eq hdepth)
  obtain ⟨hiteration, hloop, hskip, ⟨last, htokenize, -⟩, -, hlexical⟩ :=
    tokenize_progress 3 true none source
  obtain ⟨-, -, -, -, hdeep, -⟩ := tokenize_progress 2 true none source
  obtain ⟨-, result, t', hends, hcases⟩ := hiteration 0 s .start hpos
  have hlt := hcases.resolve_left fun hstop => absurd hstop.2.2.2 (by decide)
  obtain ⟨result₂, t₂, hends₂, hle⟩ := (hskip t 2 hsound (by decide)).1 '"' none true
  obtain ⟨result₃, t₃, hends₃, -⟩ := (hskip t 1 hsound (by decide)).1 '"' none true
  rw [hstep] at hends hlt
  rw [show t.line = 1 from rfl, hskim] at hends₂ hle hends₃
  rw [hwithin, Scanner.conclusion, hfault] at htokenize
  refine ⟨⟨.start, hpos, result, t', hends, hlt.2 (Nat.zero_le _)⟩, hloop 8 (by decide),
    ⟨hsound, by decide, ⟨result₂, t₂, hends₂, hle (Nat.le_refl _)⟩, result₃, t₃, hends₃⟩,
    ⟨last, htokenize⟩, hdeep.mpr (by rw [hdepth]; decide), _, hwithin, hfault, ?_⟩
  exact (hlexical _ hwithin fault hfault).2

/-! ## Texts that nest deep -/

/-- Strings inside of each other, `n` of them, each in the code that the one before it holds.  None
    of them is closed. -/
def nestedCode : Nat → List Char
  | 0 => []
  | n + 1 => '"' :: '\n' :: '#' :: '\x7b' :: '\n' :: nestedCode n

/-- What is open later counts for what is open at most. -/
private theorem deepest_read_le (frame : Frame) (frames : List Frame) (p : Place) (c : Char)
    (cs : List Char) :
    deepest (frame.read p.line c cs.head? ++ frames) (p.past c) cs
      ≤ deepest (frame :: frames) p (c :: cs) :=
  Nat.le_max_right _ _

/-- A string on whose second line there is code. -/
private theorem deepest_code_le (line : Nat) (frames : List Frame) (p : Place) (cs : List Char) :
    deepest (.interpolation 0 (p.line + 1) :: .string '"' line :: frames)
        ((((p.past '\n').past '#').past '\x7b').past '\n') cs
      ≤ deepest (.string '"' line :: frames) p ('\n' :: '#' :: '\x7b' :: '\n' :: cs) := by
  let code : List Frame := .interpolation 0 (p.line + 1) :: .string '"' line :: frames
  calc deepest code ((((p.past '\n').past '#').past '\x7b').past '\n') cs
    _ ≤ deepest code (((p.past '\n').past '#').past '\x7b') ('\n' :: cs) :=
      deepest_read_le (.interpolation 0 _) (.string '"' line :: frames) _ '\n' _
    _ ≤ deepest (.single :: code) ((p.past '\n').past '#') ('\x7b' :: '\n' :: cs) :=
      deepest_read_le .single code _ '\x7b' _
    _ ≤ deepest (.string '"' line :: frames) (p.past '\n') ('#' :: '\x7b' :: '\n' :: cs) :=
      deepest_read_le (.string '"' line) frames (p.past '\n') '#' ('\x7b' :: '\n' :: cs)
    _ ≤ deepest (.string '"' line :: frames) p ('\n' :: '#' :: '\x7b' :: '\n' :: cs) :=
      deepest_read_le (.string '"' line) frames p '\n' _

/-- Each string and the code that it holds are two more calls. -/
private theorem le_deepest_nestedCode (n line : Nat) (frames : List Frame) (p : Place) :
    openCount frames + 1 + 2 * n
      ≤ deepest (.interpolation 0 line :: frames) p (nestedCode n) := by
  -- By induction on the strings.  Inside of the code of one, the next string is read like any
  -- other.
  induction n generalizing line frames p with
  | zero =>
    have hcount : openCount (.interpolation 0 line :: frames) = openCount frames + 1 :=
      openCount_cons_of_nests rfl frames
    rw [Nat.mul_zero, Nat.add_zero, ← hcount]
    exact openCount_le_deepest (.interpolation 0 line :: frames) p []
  | succ n ih =>
    let q := p.past '"'
    let inner : List Frame := .string '"' p.line :: .interpolation 0 line :: frames
    calc openCount frames + 1 + 2 * (n + 1)
      _ = openCount inner + 1 + 2 * n := by
        rw [openCount_cons_of_nests rfl, openCount_cons_of_nests rfl]
        omega
      _ ≤ deepest (.interpolation 0 (q.line + 1) :: inner)
            ((((q.past '\n').past '#').past '\x7b').past '\n') (nestedCode n) :=
        ih _ _ _
      _ ≤ deepest inner q ('\n' :: '#' :: '\x7b' :: '\n' :: nestedCode n) :=
        deepest_code_le _ _ _ _
      _ ≤ deepest (.interpolation 0 line :: frames) p (nestedCode (n + 1)) :=
        deepest_read_le (.interpolation 0 line) frames p '"' _

/-- There are texts that nest as deep as one likes. -/
theorem le_nestingDepth_nestedCode (n : Nat) :
    2 * n ≤ nestingDepth (String.ofList (nestedCode n)) := by
  cases n with
  | zero => exact Nat.zero_le _
  | succ n =>
    let r := Reader.start (nestedCode (n + 1))
    let p := (r.toCursor.hop 1).toPlace
    -- The first step of the reader is to pass over the outermost string.
    have hstep : r.step? = some (r.skipLiteral 1 (Frame.string '"')) :=
      Reader.step?_eq_read (c := '"') rfl (.inr (by decide))
    have hdepth : r.nestingDepth = max r.stepDepth _ := Reader.nestingDepth_of_step? hstep
    rw [nestingDepth, String.toList_ofList]
    calc 2 * (n + 1)
      _ = openCount [.string '"' 1] + 1 + 2 * n := by
        rw [openCount_cons_of_nests rfl, openCount, List.countP_nil]
        omega
      _ ≤ deepest (.interpolation 0 (p.line + 1) :: [.string '"' 1])
            ((((p.past '\n').past '#').past '\x7b').past '\n') (nestedCode n) :=
        le_deepest_nestedCode n _ _ _
      _ ≤ deepest [.string '"' 1] p ('\n' :: '#' :: '\x7b' :: '\n' :: nestedCode n) :=
        deepest_code_le _ _ _ _
      _ = r.stepDepth := rfl
      _ ≤ r.nestingDepth := hdepth ▸ Nat.le_max_left _ _

/-- A scan of a text that nests too deep is given up, in a lenient reading, too. -/
private theorem tokenize_eq_tooDeep {limit : Nat} {source : String}
    (h : limit < nestingDepth source) (strict : Bool) (file : Option String) :
    ∃ last, Scanning.tokenize (.start limit strict file source) = some (.error .tooDeep, last) := by
  obtain ⟨last, htokenize, -⟩ := Scanner.tokenize_start limit strict file source
  rw [transcribeWithin, if_neg (Nat.not_le_of_lt h)] at htokenize
  exact ⟨last, htokenize⟩

/-- With room for a thousand calls there is none for six hundred strings inside of each other. -/
theorem tokenize_nestedCode_tooDeep :
    (∃ last, Scanning.tokenize (.start 1000 false none (String.ofList (nestedCode 600)))
      = some (.error .tooDeep, last)) ∧
    ∃ last, Scanning.tokenize (.start 1000 true none (String.ofList (nestedCode 600)))
      = some (.error .tooDeep, last) := by
  have hdepth : 1000 < nestingDepth (String.ofList (nestedCode 600)) :=
    Nat.lt_of_lt_of_le (by decide) (le_nestingDepth_nestedCode 600)
  exact ⟨tokenize_eq_tooDeep hdepth false none, tokenize_eq_tooDeep hdepth true none⟩

end ScopeTags.Source
