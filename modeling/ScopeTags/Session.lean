import ScopeTags.Report
import ScopeTags.Tally

/-!
# Sessions

A session has active settings and may have an active tally.  Steps read and change them and carry
out scans under them.  A `within` block has settings of its own, and a `profiled` block a tally of
its own; after the block the former ones are active again, however its body ended.  A step that
fails does not end the session.
-/

namespace ScopeTags

/-- The active settings and the active tally. -/
structure Session where
  settings : Settings := {}
  tally : Option Tally := none
deriving DecidableEq

/-- A scan that is asked for. -/
structure Request where
  input : Input
  file : Option String := none
  strict : Bool := false
  cancelAfter : Option Nat := none
deriving DecidableEq, Repr

/-- How the scan that is asked for is to be done under given settings. -/
def Request.options (r : Request) (settings : Settings) : Scan.Options :=
  { settings, file := r.file, strict := r.strict, cancelAfter := r.cancelAfter }

/-- A step of a session. -/
inductive Step where
  /-- Show the active settings. -/
  | active
  /-- Make settings of what is given. -/
  | make (given : Overrides)
  /-- Whether a tag is of interest under settings made of what is given, or the active ones. -/
  | accepts (given : Option Overrides) (tag : String)
  /-- Make settings of what is given and have them active. -/
  | set (given : Overrides)
  /-- Have the initial settings active. -/
  | reset
  /-- Change the active settings. -/
  | configure (given : Overrides)
  /-- Count a scan in the active tally. -/
  | record (tokens scopes skipped : Int)
  /-- Carry out a scan, under the active settings with changes. -/
  | scan (given : Overrides) (request : Request)
  /-- Carry out a scan step by step, under settings made of what is given, or the active ones; and
      try to carry it out twice. -/
  | drive (given : Option Overrides) (request : Request) (twice : Bool)
  /-- Scan sources one by one, under the active settings with changes. -/
  | scanMany (given : Overrides) (workers : Option Int) (sources : List String)
  /-- Report a plain value. -/
  | report (type : PlainType)
  /-- Take steps with settings made of what is given; the body may give up at its end. -/
  | within (given : Overrides) (body : List Step) (aborts : Bool)
  /-- Take steps with a new tally; the body may give up at its end. -/
  | profiled (body : List Step) (aborts : Bool)
deriving Inhabited

/-- What a step yields. -/
inductive Outcome where
  | nothing
  | fault (fault : Fault)
  | settings (settings : Settings)
  | flag (value : Bool)
  /-- A scan that was carried out. -/
  | scanned (options : Scan.Options) (run : Run)
  /-- A scan that was carried out step by step, and the second attempt if there was one. -/
  | driven (options : Scan.Options) (run : Run) (again : Option Run)
  /-- A scan that was to be carried out step by step and could not start. -/
  | undriven (fault : Fault)
  | results (results : List Result)
  /-- What each step of a body yielded with the session after it, the tally of the body if it had
      one of its own, and the fault that ended it. -/
  | body (steps : List (Outcome × Session)) (tally : Option Tally) (fault : Option Fault)
deriving Inhabited

namespace Session

/-- Count a scan in the active tally, if there is one. -/
def record (s : Session) (run : Run) : Session :=
  { s with tally := s.tally.map (·.recordRun run) }

/-- The settings made of what is given, or the active ones where nothing is. -/
def settingsOf (s : Session) : Option Overrides → Except Fault Settings
  | none => .ok s.settings
  | some given => ({} : Settings).override given

/-- The results of runs, or the first fault among them. -/
def gather (runs : List (Scan.Options × Run)) : Outcome :=
  match runs.mapM fun (o, run) => run.result? o with
  | .ok results => .results results
  | .error fault => .fault fault

/-- Scan sources one by one.  All of them are scanned, also after a fault. -/
def scanMany (s : Session) (settings : Settings) (sources : List String) :
    Outcome × Session × List Notice :=
  let o : Scan.Options := { settings }
  let runs := sources.map fun source => (Input.source source).scan o
  (gather (runs.map (o, ·)), runs.foldl record s, runs.flatMap (·.notices))

/-- The fault of a body that gave up. -/
def abortion (aborts : Bool) : Option Fault := if aborts then some .aborted else none

mutual

/-- Take a step: what it yields, the session after it, and the notices it leaves. -/
def step (s : Session) : Step → Outcome × Session × List Notice
  | .active => (.settings s.settings, s, [])
  | .make given =>
    match ({} : Settings).override given with
    | .error fault => (.fault fault, s, [])
    | .ok settings => (.settings settings, s, [])
  | .accepts given tag =>
    match s.settingsOf given with
    | .error fault => (.fault fault, s, [])
    | .ok settings => (.flag (settings.accepts tag), s, [])
  | .set given =>
    match ({} : Settings).override given with
    | .error fault => (.fault fault, s, [])
    | .ok settings => (.nothing, { s with settings }, [])
  | .reset => (.nothing, { s with settings := {} }, [])
  | .configure given =>
    match s.settings.override given with
    | .error fault => (.fault fault, s, [])
    | .ok settings => (.settings settings, { s with settings }, [])
  | .record tokens scopes skipped =>
    (.nothing, { s with tally := s.tally.map (·.record tokens scopes skipped) }, [])
  | .scan given request =>
    match s.settings.override given with
    | .error fault => (.fault fault, s, [])
    | .ok settings =>
      let o := request.options settings
      let run := request.input.scan o
      (.scanned o run, s.record run, run.notices)
  | .drive given request twice =>
    match s.settingsOf given with
    | .error fault => (.undriven fault, s, [])
    | .ok settings =>
      let o := request.options settings
      let (run, scanner) := (Scanner.ofInput o request.input).scan
      let again := if twice then some scanner.scan.1 else none
      (.driven o run again, s.record run, run.notices)
  | .scanMany given workers sources =>
    match s.settings.override given with
    | .error fault => (.fault fault, s, [])
    | .ok settings =>
      if workers.any (· ≤ 0) then (.fault .noWorkers, s, []) else s.scanMany settings sources
  | .report type => (.fault type.fault, s, [])
  | .within given body aborts =>
    match ({} : Settings).override given with
    | .error fault => (.fault fault, s, [])
    | .ok settings =>
      let (observed, last, notices) := steps { s with settings } body
      (.body observed none (abortion aborts), { last with settings := s.settings }, notices)
  | .profiled body aborts =>
    let (observed, last, notices) := steps { s with tally := some {} } body
    (.body observed last.tally (abortion aborts), { last with tally := s.tally }, notices)

/-- Take steps one after the other: what each yields with the session after it, the session after
    all of them, and the notices they leave. -/
def steps (s : Session) : List Step → List (Outcome × Session) × Session × List Notice
  | [] => ([], s, [])
  | first :: rest =>
    let (outcome, next, notices) := step s first
    let (observed, last, more) := steps next rest
    ((outcome, next) :: observed, last, notices ++ more)

end

end Session

end ScopeTags
