import Mathlib.Logic.Function.Iterate
import ScopeTags.Proofs.ScanStep
import ScopeTags.Proofs.SessionInPlace

/-!
# Cancelled scans

Three things can stop a scan before its end: a construct that is left open, under a strict reading;
a token that does not fit; and the limit after which the scan is cancelled.  For every token they
are looked at in one order.  The token is drawn, which may bring up the first of them; then comes
the limit; and only then is the token fed.  So a scan that is cancelled after `n` tokens goes the
way of the scan without a limit as long as that has drawn no more than `n` tokens, whatever stops it
there, and else stops in the state after exactly `n` of them.

## Key results

- `Scan.runFrom_limited`: a run with a limit against the same run without, event by event
- `Scanner.scan_iterate`: a scanner that has been used fails and stays as it is
- `Request.answer_limited`: what that means for the answer to a request, for sessions and scanners
-/

namespace ScopeTags

namespace Source

/-- The tokens that come up before a fault. -/
def tokensBefore (strict : Bool) (file : Option String) (found : List Event) : List Token :=
  (found.takeWhile fun event => (event.fault? strict file).isNone).filterMap Event.token?

section TokensBefore

variable {strict : Bool} {file : Option String} {event : Event}

/-- Nothing comes up after a fault. -/
private theorem tokensBefore_of_fault {fault : Fault} (h : event.fault? strict file = some fault)
    (found : List Event) : tokensBefore strict file (event :: found) = [] := by
  simp [tokensBefore, h]

/-- An event that is no fault, and those after it. -/
private theorem tokensBefore_of_none (h : event.fault? strict file = none) (found : List Event) :
    tokensBefore strict file (event :: found) =
      event.token?.toList ++ tokensBefore strict file found := by
  rw [tokensBefore, List.takeWhile_cons_of_pos (by simp [h]), List.filterMap_cons]
  cases event.token? <;> rfl

/-- Tokens that are given come up all. -/
private theorem tokensBefore_map_token (strict : Bool) (file : Option String) (ts : List Token) :
    tokensBefore strict file (ts.map .token) = ts := by
  induction ts with
  | nil => rfl
  | cons t ts ih =>
    rw [List.map_cons, tokensBefore_of_none rfl, ih]
    rfl

/-- Events that are all tokens hold no fault. -/
private theorem findSome?_fault?_map_token (strict : Bool) (file : Option String)
    (ts : List Token) : (ts.map Event.token).findSome? (Event.fault? strict file) = none := by
  simp [Event.fault?]

end TokensBefore

end Source

/-- The tokens of the input and the fault that comes after them.  Tokens that are given are followed
    by none. -/
def Input.transcript (strict : Bool) (file : Option String) : Input → Source.Transcript
  | .source text => Source.transcribe strict file text
  | .tokens given => { tokens := given, notices := [], fault := none }

/-- The tokens of an input are those of its events. -/
private theorem Input.tokens_transcript (strict : Bool) (file : Option String) (input : Input) :
    (input.transcript strict file).tokens =
      Source.tokensBefore strict file (input.events file) := by
  cases input with
  | source text => rfl
  | tokens given => exact (Source.tokensBefore_map_token strict file given).symm

/-- The fault after them is the first that comes up. -/
private theorem Input.fault_transcript (strict : Bool) (file : Option String) (input : Input) :
    (input.transcript strict file).fault =
      (input.events file).findSome? (Source.Event.fault? strict file) := by
  cases input with
  | source text => rfl
  | tokens given => exact (Source.findSome?_fault?_map_token strict file given).symm

namespace Scan

/-! ## A run with a limit -/

/-- The options with a limit, or with none. -/
def Options.upTo (o : Options) (limit : Option Nat) : Options := { o with cancelAfter := limit }

/-- The limit does not matter to a token that is fed. -/
private theorem feed_upTo (o : Options) (limit : Option Nat) (t : Token) (s : Scan) :
    s.feed (o.upTo limit) t = s.feed o t :=
  @dispatch_congr o (o.upTo limit) rfl rfl t _

/-- How the run `limited`, which is cancelled after `n` tokens, goes where the run `free` has no
    limit.  Both start in the state `s`, and the tokens `ts` are there to take before the fault
    `ending`, if one follows them. -/
structure Limited (o : Options) (n : Nat) (s : Scan) (ts : List Token) (ending : Option Fault)
    (free limited : Run) : Prop where
  /-- A token before the limit stops both. -/
  stopped : ∀ fault, s.feedAll o (ts.take (n - s.consumed)) = .error fault →
    limited = free ∧ free.fault = some fault
  /-- The tokens come to their end before the limit. -/
  ended : ∀ last, s.feedAll o (ts.take (n - s.consumed)) = .ok last → s.consumed + ts.length ≤ n →
    limited = free ∧ free.final = last ∧ free.fault = ending
  /-- One more token has been drawn when the limit is looked at. -/
  cancelled : ∀ last, s.feedAll o (ts.take (n - s.consumed)) = .ok last →
    n < s.consumed + ts.length → limited.final = last ∧ limited.fault = some (.cancelled n)

namespace Limited

variable {o : Options} {n : Nat} {s next : Scan} {t : Token} {ts : List Token}
  {ending : Option Fault} {free limited : Run}

/-- Where no token is left to take, both runs are at their end. -/
private theorem of_nil (free : Run) (hs : s.consumed ≤ n) (hfinal : free.final = s) :
    Limited o n s [] free.fault free free := by
  have hfed : s.feedAll o (([] : List Token).take (n - s.consumed)) = .ok s := by
    rw [List.take_nil]
    rfl
  refine ⟨fun fault h => ?_, fun last h _ => ?_, fun last _ hmany => ?_⟩
  · rw [hfed] at h
    cases h
  · rw [hfed] at h
    exact ⟨rfl, hfinal.trans (Except.ok.inj h), rfl⟩
  · simp only [List.length_nil] at hmany
    omega

/-- What comes before does not matter to where the runs stop. -/
theorem behind (h : Limited o n s ts ending free limited) (visits : List (Token × Scan))
    (notices : List Notice) :
    Limited o n s ts ending (free.behind visits notices) (limited.behind visits notices) where
  stopped fault hfed :=
    (h.stopped fault hfed).imp_left (congrArg fun run : Run => run.behind visits notices)
  ended last hfed hfew :=
    (h.ended last hfed hfew).imp_left (congrArg fun run : Run => run.behind visits notices)
  cancelled := h.cancelled

/-- A token that is fed takes up one of those that are left before the limit. -/
theorem cons (h : Limited o n next ts ending free limited) (hs : s.consumed < n)
    {notices : List Notice} (hfeed : s.feed o t = .ok (next, notices)) :
    Limited o n s (t :: ts) ending free limited := by
  have hconsumed := consumed_feed hfeed
  -- The token is counted, so one less is left before the limit.
  have hfed : s.feedAll o ((t :: ts).take (n - s.consumed)) =
      next.feedAll o (ts.take (n - next.consumed)) := by
    rw [show n - s.consumed = n - next.consumed + 1 by omega, List.take_succ_cons,
      feedAll_cons_of_ok hfeed]
  have hcount : s.consumed + (t :: ts).length = next.consumed + ts.length := by
    rw [hconsumed, List.length_cons]
    omega
  constructor
  · rw [hfed]
    exact h.stopped
  · rw [hfed, hcount]
    exact h.ended
  · rw [hfed, hcount]
    exact h.cancelled

/-- A token before the limit that cannot be fed stops both runs. -/
private theorem of_error (hs : s.consumed < n) {fault : Fault} (hfeed : s.feed o t = .error fault) :
    Limited o n s (t :: ts) ending { final := s, fault := some fault }
      { final := s, fault := some fault } := by
  have hfed : s.feedAll o ((t :: ts).take (n - s.consumed)) = .error fault := by
    rw [show n - s.consumed = n - (s.consumed + 1) + 1 by omega, List.take_succ_cons,
      feedAll_cons_of_error hfeed]
  refine ⟨fun fault' h => ?_, fun last h _ => ?_, fun last h _ => ?_⟩
  · rw [hfed] at h
    exact ⟨rfl, congrArg some (Except.error.inj h)⟩
  · rw [hfed] at h
    cases h
  · rw [hfed] at h
    cases h

/-- At the limit the token that was drawn is not fed any more. -/
private theorem of_limit (hs : s.consumed = n) :
    Limited o n s (t :: ts) ending free { final := s, fault := some (.cancelled s.consumed) } := by
  have hfed : s.feedAll o ((t :: ts).take (n - s.consumed)) = .ok s := by
    rw [hs, Nat.sub_self, List.take_zero]
    rfl
  refine ⟨fun fault h => ?_, fun last _ hfew => ?_, fun last h _ => ?_⟩
  · rw [hfed] at h
    cases h
  · simp only [List.length_cons] at hfew
    omega
  · rw [hfed] at h
    exact ⟨Except.ok.inj h, by rw [hs]⟩

end Limited

/-- A run with a limit against the same run without. -/
theorem runFrom_limited (o : Options) {n : Nat} {s : Scan} (hs : s.consumed ≤ n)
    (events : List Source.Event) :
    Limited o n s (Source.tokensBefore o.strict o.file events)
      (events.findSome? (Source.Event.fault? o.strict o.file)) (s.runFrom (o.upTo none) events)
      (s.runFrom (o.upTo (some n)) events) := by
  -- By induction on the events; the count of tokens says how far it is to the limit.
  induction events generalizing s with
  | nil => exact .of_nil (s.runFrom (o.upTo none) []) hs rfl
  | cons event events ih =>
    cases hfault : event.fault? o.strict o.file with
    | some fault =>
      -- The fault comes up in place of a token, so the limit is not looked at any more.
      rw [runFrom_of_fault (o := o.upTo none) events hfault,
        runFrom_of_fault (o := o.upTo (some n)) events hfault,
        Source.tokensBefore_of_fault hfault, List.findSome?_cons, hfault]
      exact .of_nil { final := s, fault := some fault } hs rfl
    | none =>
      rw [Source.tokensBefore_of_none hfault, List.findSome?_cons, hfault]
      cases htoken : event.token? with
      | none =>
        rw [runFrom_of_no_token (o := o.upTo none) events hfault htoken,
          runFrom_of_no_token (o := o.upTo (some n)) events hfault htoken]
        exact (ih hs).behind _ _
      | some t =>
        -- The token has been drawn.  Now the limit is looked at, and then the token is fed.
        by_cases hlimit : s.consumed = n
        · have hcancelled : s.isCancelled (o.upTo (some n)) = true := by
            simp [isCancelled, Options.upTo, hlimit]
          rw [runFrom_of_cancelled (o := o.upTo (some n)) events hfault htoken hcancelled]
          exact .of_limit hlimit
        · have hlt : s.consumed < n := by omega
          have hfree : s.isCancelled (o.upTo none) = false := rfl
          have hcancelled : s.isCancelled (o.upTo (some n)) = false := by
            simp [isCancelled, Options.upTo, hlt]
          cases hfeed : s.feed o t with
          | error fault =>
            rw [runFrom_of_feed_error (o := o.upTo none) events hfault htoken hfree
                ((feed_upTo o none t s).trans hfeed),
              runFrom_of_feed_error (o := o.upTo (some n)) events hfault htoken hcancelled
                ((feed_upTo o (some n) t s).trans hfeed)]
            exact .of_error hlt hfeed
          | ok after =>
            have hconsumed := consumed_feed hfeed
            rw [runFrom_of_feed_ok (o := o.upTo none) events hfault htoken hfree
                ((feed_upTo o none t s).trans hfeed),
              runFrom_of_feed_ok (o := o.upTo (some n)) events hfault htoken hcancelled
                ((feed_upTo o (some n) t s).trans hfeed)]
            exact ((ih (by omega)).cons hlt hfeed).behind _ _

end Scan

/-! ## Scanners -/

namespace Scanner

/-- A scanner that has been used fails and stays as it is, however often it is used again. -/
theorem scan_iterate (scanner : Scanner) (k : Nat) :
    ((fun s : Scanner => s.scan.2)^[k] scanner.scan.2).scan =
      ({ final := scanner.scan.2.state, fault := some .spent }, scanner.scan.2) := by
  -- Using a scanner leaves it spent, and a spent one is left as it is.
  have hspent : scanner.scan.2.spent = true := by
    rw [scan]
    split
    · next h => exact h
    · rfl
  have hagain : scanner.scan.2.scan =
      ({ final := scanner.scan.2.state, fault := some .spent }, scanner.scan.2) := by
    generalize scanner.scan.2 = used at hspent
    rw [scan, if_pos hspent]
  induction k with
  | zero => exact hagain
  | succ k ih => rw [Function.iterate_succ_apply, hagain, ih]

end Scanner

/-! ## Requests -/

open Session (InPlace Store)

section Answer

variable {request : Request} {settings : Settings}

/-- The answer of a scan that is stopped. -/
private theorem Request.answer_of_fault {fault : Fault}
    (h : (request.input.scan (request.options settings)).fault = some fault) :
    request.answer settings = .error fault := by
  rw [answer, Run.result?, h]

/-- The answer of one that comes to its end. -/
private theorem Request.answer_of_end
    (h : (request.input.scan (request.options settings)).fault = none) :
    request.answer settings =
      .ok ((request.input.scan (request.options settings)).final.result
        (request.options settings)) := by
  rw [answer, Run.result?, h]
  rfl

/-- The limit itself is no part of a result. -/
private theorem Request.answer_congr {limit limit' : Option Nat}
    (h : request.input.scan (Request.options { request with cancelAfter := limit' } settings) =
      request.input.scan (Request.options { request with cancelAfter := limit } settings)) :
    Request.answer { request with cancelAfter := limit' } settings =
      Request.answer { request with cancelAfter := limit } settings := by
  rw [answer, answer, h]
  rfl

end Answer

/-- A scan that is cancelled after `n` tokens, against the same scan without a limit.  Where one of
    the first `n` tokens cannot be fed, or the tokens come to an end with a fault and are `n` at
    most, both have that fault.  Where they come to an end without one and are `n` at most, both
    have the same result.  Else the scan is cancelled with `n` tokens taken, and the scanner is left
    in the state after just these.  The active tally counts the scan if it has a result, and else
    nothing is changed.  Whatever became of the scan, its scanner fails from then on and stays as it
    is. -/
theorem Request.answer_limited (request : Request) (settings : Settings) (n : Nat) :
    let free : Request := { request with cancelAfter := none }
    let limited : Request := { request with cancelAfter := some n }
    let stream : Source.Transcript := request.input.transcript request.strict request.file
    let fed : Except Fault Scan :=
      Scan.start.feedAll (free.options settings) (stream.tokens.take n)
    let scanner : Scanner := Scanner.ofInput (limited.options settings) request.input
    (∀ fault, fed = .error fault →
      free.answer settings = .error fault ∧ limited.answer settings = .error fault) ∧
    (∀ s, fed = .ok s →
      (∀ fault, stream.fault = some fault → stream.tokens.length ≤ n →
        free.answer settings = .error fault ∧ limited.answer settings = .error fault) ∧
      (stream.fault = none → stream.tokens.length ≤ n →
        free.answer settings = .ok (s.result (free.options settings)) ∧
          limited.answer settings = free.answer settings) ∧
      (n < stream.tokens.length →
        limited.answer settings = .error (.cancelled n) ∧ scanner.scan.2.state = s)) ∧
    (∀ st : Store,
      (∀ result, limited.answer settings = .ok result →
        (InPlace.scan (limited.options settings) request.input).run st =
          .ok result (st.count [result.entry])) ∧
      (∀ fault, limited.answer settings = .error fault →
        (InPlace.scan (limited.options settings) request.input).run st = .error fault st)) ∧
    (∀ (session : Session) (given : Overrides) (fault : Fault),
      session.settings.override given = .ok settings → limited.answer settings = .error fault →
        (session.step (.scan given limited)).2.1 = session) ∧
    ∀ k, ((fun s : Scanner => s.scan.2)^[k] scanner.scan.2).scan =
      ({ final := scanner.scan.2.state, fault := some .spent }, scanner.scan.2) := by
  intro free limited stream fed scanner
  have hlimited : Scan.Limited (free.options settings) n .start stream.tokens stream.fault
      (request.input.scan (free.options settings))
      (request.input.scan (limited.options settings)) := by
    rw [Input.tokens_transcript, Input.fault_transcript]
    exact Scan.runFrom_limited (free.options settings) (Nat.zero_le n) _
  refine ⟨fun fault hfed => ?_, fun s hfed => ⟨fun fault hfault hfew => ?_, fun hfault hfew => ?_,
    fun hmany => ?_⟩, fun st => ⟨fun result hanswer => ?_, fun fault hanswer => ?_⟩,
    fun session given fault hgiven hanswer => ?_, fun k => ?_⟩
  · -- A token before the limit stops both.
    obtain ⟨hsame, hfault⟩ := hlimited.stopped fault hfed
    have hanswer : free.answer settings = .error fault := answer_of_fault hfault
    exact ⟨hanswer, (answer_congr hsame).trans hanswer⟩
  · -- The tokens end with a fault, at the limit or before.
    obtain ⟨hsame, -, hending⟩ := hlimited.ended s hfed (by simpa [Scan.start] using hfew)
    have hanswer : free.answer settings = .error fault := answer_of_fault (hending.trans hfault)
    exact ⟨hanswer, (answer_congr hsame).trans hanswer⟩
  · -- They end without one.
    obtain ⟨hsame, hfinal, hending⟩ := hlimited.ended s hfed (by simpa [Scan.start] using hfew)
    have hanswer := @answer_of_end free settings (hending.trans hfault)
    exact ⟨hfinal ▸ hanswer, answer_congr hsame⟩
  · -- There are more of them than the limit allows.
    obtain ⟨hfinal, hfault⟩ := hlimited.cancelled s hfed (by simpa [Scan.start] using hmany)
    exact ⟨answer_of_fault hfault, hfinal⟩
  · rw [InPlace.run_scan]
    exact congrArg (InPlace.answered st) hanswer
  · rw [InPlace.run_scan]
    exact congrArg (InPlace.answered st) hanswer
  · -- A session writes down only scans that are completed.
    have hentries : (Step.scan given limited).entries session.settings = [] := by
      rw [Step.entries, hgiven]
      show completed [limited.answer settings] = []
      rw [hanswer]
      rfl
    rw [Session.step_eq, hentries]
    exact session.eq_of_no_entries.symm
  · exact scanner.scan_iterate k

/-- A string is left open behind one token.  The fault of a strict reading comes when the second
    token is to be drawn, and so before a limit of one token, but after a limit of none. -/
theorem Request.answer_limited_open_string :
    let request : Request := { input := .source "x \"y", strict := true }
    let stream : Source.Transcript := request.input.transcript true none
    stream.tokens.length = 1 ∧
      stream.fault = some (.lexical "Unterminated literal" { line := some 1 }) ∧
      Request.answer { request with cancelAfter := some 1 } {} =
        .error (.lexical "Unterminated literal" { line := some 1 }) ∧
      Request.answer { request with cancelAfter := some 0 } {} = .error (.cancelled 0) := by
  intro request stream
  have hstream : stream.tokens.length = 1 ∧
      stream.fault = some (.lexical "Unterminated literal" { line := some 1 }) ∧
      (Scan.start.feedAll { strict := true } (stream.tokens.take 1)).toOption.isSome = true := by
    decide +kernel
  obtain ⟨hlength, hfault, hfed⟩ := hstream
  obtain ⟨s, hs⟩ : ∃ s, Scan.start.feedAll { strict := true } (stream.tokens.take 1) = .ok s := by
    cases hcase : Scan.start.feedAll { strict := true } (stream.tokens.take 1) with
    | ok s => exact ⟨s, rfl⟩
    | error fault =>
      rw [hcase] at hfed
      cases hfed
  obtain ⟨-, hone, -⟩ := answer_limited request {} 1
  obtain ⟨-, hnone, -⟩ := answer_limited request {} 0
  exact ⟨hlength, hfault, ((hone s hs).1 _ hfault (Nat.le_of_eq hlength)).2,
    ((hnone .start rfl).2.2 (by rw [hlength]; decide)).1⟩

end ScopeTags
