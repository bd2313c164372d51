import ScopeTags.Registry
import ScopeTags.Settings
import ScopeTags.Source.Transcript

/-!
# Scans

A scan follows the events of a source, or a given list of tokens, and hands each token to the
current scope.  Where an outermost scope is closed, a new one takes its place.  `Scan.run` goes
through all events and stops early at a fault: a construct left open, under a strict reading; a
token that does not fit, unless such tokens are passed over; or the limit after which the scan is
to be cancelled.
-/

namespace ScopeTags

/-- The state of a scan. -/
structure Scan where
  registry : Registry
  /-- The scope that receives the next token. -/
  current : Nat := 0
  consumed : Nat := 0
  skipped : Nat := 0
deriving DecidableEq

/-- How a scan is to be done. -/
structure Scan.Options where
  settings : Settings := {}
  file : Option String := none
  strict : Bool := false
  /-- How many tokens to take before the scan is cancelled. -/
  cancelAfter : Option Nat := none
deriving DecidableEq

/-- All scopes of a completed scan. -/
structure Result where
  registry : Registry
  file : Option String
  tokens : Nat
  skipped : Nat
deriving DecidableEq

/-- A scan from its start to where it stopped. -/
structure Run where
  /-- The state where the scan stopped. -/
  final : Scan
  /-- Each token that was taken, with the state after it. -/
  visits : List (Token × Scan) := []
  notices : List Notice := []
  /-- What stopped the scan before its end. -/
  fault : Option Fault := none
deriving DecidableEq

namespace Scan

/-- The arena of all scopes of a scan. -/
def arena : String := "scan"

/-- A registry with a new outermost scope. -/
def addRoot (r : Registry) : Registry := r.enroll none (some arena)

/-- The state before the first token: one outermost scope. -/
def start : Scan := { registry := addRoot {} }

/-- The current scope. -/
def currentScope? (s : Scan) : Option Scope := s.registry.get? s.current

/-- Where a token stands, as far as it stands anywhere. -/
def siteOf (file : Option String) (t : Token) : Site :=
  let known (n : Int) : Option Int := if n = 0 then none else some n
  { line := known t.location.line, column := known t.location.column, file }

/-- The parent that gets an `end` which the current scope cannot take: the current scope was
    opened by a tag comment that documents nothing, so the `end` is meant for the scope around
    it. -/
def heir? (s : Scan) (t : Token) : Option (Scope × Nat) := do
  let scope ← s.currentScope?
  let parent ← scope.parent
  if t.isScopeEnd ∧ (scope.status = .pending ∨ scope.status = .tagged) then
    some (scope, parent)
  else none

/-- The state after a reaction.  Where no scope is left to receive tokens, a new outermost one
    does. -/
def settle (s : Scan) (t : Token) (reaction : Reaction) : Scan × List Notice :=
  match reaction.receiver with
  | some i => ({ s with registry := reaction.registry, current := i }, reaction.notices)
  | none =>
    ({ s with registry := addRoot reaction.registry, current := reaction.registry.size },
      reaction.notices ++ [.rootClosed t.location.line])

/-- Hand a token to the current scope.  One that does not fit stops the scan or is passed over,
    but an `end` may go to the parent instead. -/
def dispatch (o : Options) (t : Token) (s : Scan) : Except Fault (Scan × List Notice) :=
  match s.registry.react s.current o.settings.accepts t with
  | .ok reaction => .ok (s.settle t reaction)
  | .error fault =>
    match o.settings.policy with
    | .raise => .error (fault.locate (siteOf o.file t))
    | .skip =>
      let passOver : Scan × List Notice :=
        ({ s with skipped := s.skipped + 1 }, [.skipped o.file t.location.line t.text fault])
      match s.heir? t with
      | none => .ok passOver
      | some (scope, parent) =>
        -- A parent is made before the scopes inside of it, so this always holds.
        if parent < s.current then
          match dispatch o t { s with current := parent } with
          | .error fault => .error fault
          | .ok (next, notices) =>
            .ok (next, .leftOpen o.file t.location.line scope.status scope.id :: notices)
        else .ok passOver
termination_by s.current

/-- Take one token. -/
def feed (o : Options) (t : Token) (s : Scan) : Except Fault (Scan × List Notice) :=
  dispatch o t { s with consumed := s.consumed + 1 }

/-- Whether the scan is to be cancelled before the next token. -/
def isCancelled (o : Options) (s : Scan) : Bool := o.cancelAfter.any (· ≤ s.consumed)

/-- Go through events from a state on. -/
def runFrom (o : Options) : Scan → List Source.Event → Run
  | s, [] => { final := s, notices := [.scanned o.file s.consumed s.registry.size] }
  | s, event :: events =>
    match event.fault? o.strict o.file with
    | some fault => { final := s, fault := some fault }
    | none =>
      match event.token? with
      | none =>
        let run := runFrom o s events
        { run with notices := (event.notice? o.file).toList ++ run.notices }
      | some t =>
        -- A token is drawn before the limit is looked at, so a fault in drawing it comes first.
        if s.isCancelled o then { final := s, fault := some (.cancelled s.consumed) }
        else
          match s.feed o t with
          | .error fault => { final := s, fault := some fault }
          | .ok (next, notices) =>
            let run := runFrom o next events
            { run with visits := (t, next) :: run.visits, notices := notices ++ run.notices }

/-- Go through all events. -/
def run (o : Options) (events : List Source.Event) : Run := start.runFrom o events

end Scan

/-- What a scan takes its tokens from. -/
inductive Input where
  | source (text : String)
  | tokens (tokens : List Token)
deriving DecidableEq, Repr

/-- The events of the input. -/
def Input.events (file : Option String) : Input → List Source.Event
  | .source text => Source.eventsIn file text
  | .tokens given => given.map .token

/-- Scan the input. -/
def Input.scan (o : Scan.Options) (input : Input) : Run := Scan.run o (input.events o.file)

/-- A scan that can be carried out once. -/
structure Scanner where
  options : Scan.Options
  events : List Source.Event
  state : Scan := Scan.start
  spent : Bool := false
deriving DecidableEq

namespace Scanner

/-- A scanner of the input. -/
def ofInput (o : Scan.Options) (input : Input) : Scanner :=
  { options := o, events := input.events o.file }

/-- Carry out the scan.  A second time it fails and changes nothing. -/
def scan (s : Scanner) : Run × Scanner :=
  if s.spent then ({ final := s.state, fault := some .spent }, s)
  else
    let run := s.state.runFrom s.options s.events
    (run, { s with state := run.final, spent := true })

end Scanner

/-- The result of a scan that came to its end. -/
def Run.result? (o : Scan.Options) (run : Run) : Except Fault Result :=
  match run.fault with
  | some fault => .error fault
  | none =>
    .ok { registry := run.final.registry, file := o.file, tokens := run.final.consumed,
          skipped := run.final.skipped }

end ScopeTags
