import ScopeTags.Session

/-!
# Sessions in place

A session hands its settings and its tally from step to step, so that a block cannot but leave what
it found.  Here the settings and the tally are variables.  A block writes to one of them, carries
out its body and then writes back what was there, also where the body gives up.  A scan is such a
block itself: its settings are active while it follows the tokens, any of which can stop it.  And
tallies are shared: there is one store of them, and what is active is the place of one.

## Key results

- `Session.InPlace.run_withSettings`, `Session.InPlace.run_withTally`: what blocks write back
- `Session.InPlace.run_scan`: a scan that comes to its end is counted, and changes nothing else
- `Step.leads_after`: what a step does to the settings and to the tallies
- `Session.step_eq`: that it does the same to a session
- `Session.steps_scoped`: what blocks and scans leave as it was, and what a tally holds in the end
-/

namespace ScopeTags

/-! ## Entries of a tally -/

/-- What one scan adds to a tally. -/
structure Entry where
  tokens : Int
  scopes : Int
  skipped : Int
deriving DecidableEq, Repr

/-- What a scan that came to its end adds to a tally. -/
def Result.entry (r : Result) : Entry := ⟨r.tokens, r.registry.size, r.skipped⟩

/-- The entries of those scans that came to their end. -/
def completed (answers : List (Except Fault Result)) : List Entry :=
  answers.filterMap fun answer => answer.toOption.map Result.entry

/-- Answers one after the other. -/
theorem completed_append (answers answers' : List (Except Fault Result)) :
    completed (answers ++ answers') = completed answers ++ completed answers' :=
  List.filterMap_append

/-- The first answer and the others. -/
private theorem completed_cons (answer : Except Fault Result)
    (answers : List (Except Fault Result)) :
    completed (answer :: answers) = completed [answer] ++ completed answers :=
  completed_append [answer] answers

/-- The sum of one of their numbers over entries. -/
def total (number : Entry → Int) (es : List Entry) : Int :=
  es.foldr (fun e rest => number e + rest) 0

/-- Nothing adds up to zero. -/
@[simp] theorem total_nil (number : Entry → Int) : total number [] = 0 := rfl

/-- The first entry and the others. -/
@[simp] theorem total_cons (number : Entry → Int) (e : Entry) (es : List Entry) :
    total number (e :: es) = number e + total number es := rfl

/-- Entries one after the other. -/
private theorem total_append (number : Entry → Int) (es es' : List Entry) :
    total number (es ++ es') = total number es + total number es' := by
  induction es with
  | nil => simp
  | cons e es ih => rw [List.cons_append, total_cons, total_cons, ih, Int.add_assoc]

namespace Tally

/-- The tally with entries added: each counter grows by the sum over the entries, and the number of
    scans by the number of entries. -/
def plus (t : Tally) (es : List Entry) : Tally where
  tokens := t.tokens + total Entry.tokens es
  scopes := t.scopes + total Entry.scopes es
  skipped := t.skipped + total Entry.skipped es
  scans := t.scans + es.length

/-- Without entries a tally stays as it is. -/
@[simp] theorem plus_nil (t : Tally) : t.plus [] = t := by
  simp [plus]

/-- Entries may be added in two goes. -/
private theorem plus_append (t : Tally) (es es' : List Entry) :
    t.plus (es ++ es') = (t.plus es).plus es' := by
  simp [plus, total_append, Int.add_assoc]

/-- To add one entry is to record it. -/
private theorem plus_singleton (t : Tally) (e : Entry) :
    t.plus [e] = t.record e.tokens e.scopes e.skipped := by
  simp [plus, record]

/-- A run is recorded if it came to its end. -/
private theorem recordRun_eq (t : Tally) (o : Scan.Options) (run : Run) :
    t.recordRun run = t.plus (completed [run.result? o]) := by
  rw [recordRun, Run.result?]
  cases run.fault with
  | none => simp [completed, Except.toOption, plus_singleton, Result.entry]
  | some fault => simp [completed, Except.toOption]

end Tally

/-- What the scan that is asked for comes to under given settings. -/
def Request.answer (r : Request) (settings : Settings) : Except Fault Result :=
  (r.input.scan (r.options settings)).result? (r.options settings)

/-- What the scan of one source among many comes to. -/
def sourceAnswer (settings : Settings) (source : String) : Except Fault Result :=
  Request.answer { input := .source source } settings

/-! ## Scans event by event -/

/-- The result of a scan that ended in that state. -/
def Scan.result (o : Scan.Options) (s : Scan) : Result where
  registry := s.registry
  file := o.file
  tokens := s.consumed
  skipped := s.skipped

/-- The state after what comes up next, if that does not stop the scan. -/
def Scan.meet (o : Scan.Options) (s : Scan) (event : Source.Event) : Except Fault Scan :=
  match event.fault? o.strict o.file with
  | some fault => .error fault
  | none =>
    match event.token? with
    | none => .ok s
    | some t =>
      if s.isCancelled o then .error (.cancelled s.consumed) else (s.feed o t).map Prod.fst

/-- The state at the end of a run, or what stopped it before. -/
def Run.last (run : Run) : Except Fault Scan :=
  match run.fault with
  | some fault => .error fault
  | none => .ok run.final

/-- A run that came to its end has a result. -/
theorem Run.result?_eq (o : Scan.Options) (run : Run) :
    run.result? o = run.last.map (Scan.result o) := by
  rw [Run.result?, Run.last]
  cases run.fault <;> rfl

/-- A run goes on from the state after the first event. -/
theorem Scan.last_runFrom_cons (o : Scan.Options) (s : Scan) (event : Source.Event)
    (events : List Source.Event) :
    (s.runFrom o (event :: events)).last =
      s.meet o event >>= fun next => (next.runFrom o events).last := by
  rw [Scan.runFrom, Scan.meet]
  cases event.fault? o.strict o.file with
  | some fault => rfl
  | none =>
    cases event.token? with
    | none => rfl
    | some t =>
      dsimp only
      split
      · rfl
      · cases s.feed o t <;> rfl

/-! ## What steps are to do -/

mutual

/-- The settings after a step that is taken under settings `s`.  A block with settings of its own
    has no part in it. -/
def Step.resulting (s : Settings) : Step → Settings
  | .set given => (({} : Settings).override given).toOption.getD s
  | .reset => {}
  | .configure given => (s.override given).toOption.getD s
  | .profiled body _ => Step.resultingAll s body
  | _ => s

/-- The settings after steps one after the other. -/
def Step.resultingAll (s : Settings) : List Step → Settings
  | [] => s
  | first :: rest => Step.resultingAll (first.resulting s) rest

end

mutual

/-- What a step that is taken under settings `s` adds to the active tally: its entry if it records
    one, and those of the scans that it brings to their end.  A block with a tally of its own adds
    nothing. -/
def Step.entries (s : Settings) : Step → List Entry
  | .record tokens scopes skipped => [⟨tokens, scopes, skipped⟩]
  | .scan given request =>
    match s.override given with
    | .error _ => []
    | .ok settings => completed [request.answer settings]
  | .drive given request _ =>
    match ({ settings := s } : Session).settingsOf given with
    | .error _ => []
    | .ok settings => completed [request.answer settings]
  | .scanMany given workers sources =>
    match s.override given with
    | .error _ => []
    | .ok settings =>
      if workers.any (· ≤ 0) then [] else completed (sources.map (sourceAnswer settings))
  | .within given body _ =>
    match ({} : Settings).override given with
    | .error _ => []
    | .ok settings => Step.entriesAll settings body
  | _ => []

/-- What steps one after the other add to the active tally. -/
def Step.entriesAll (s : Settings) : List Step → List Entry
  | [] => []
  | first :: rest => first.entries s ++ Step.entriesAll (first.resulting s) rest

end

namespace Session

/-- Runs that are recorded one after the other. -/
theorem foldl_record (s : Session) (o : Scan.Options) (runs : List Run) :
    runs.foldl record s =
      { s with tally := s.tally.map (·.plus (completed (runs.map (·.result? o)))) } := by
  induction runs generalizing s with
  | nil =>
    obtain ⟨settings, tally⟩ := s
    cases tally <;> simp [completed]
  | cons run runs ih =>
    -- The first run is recorded, and the others on top of it.
    rw [List.foldl_cons, ih, List.map_cons, completed_cons, record]
    simp only [Option.map_map, Function.comp_def, Tally.recordRun_eq _ o, ← Tally.plus_append]

/-- Nothing happens where the settings stay and no entry is added. -/
theorem eq_of_no_entries (s : Session) : s = ⟨s.settings, s.tally.map (·.plus [])⟩ := by
  simp

mutual

/-- What a step does to a session. -/
theorem step_eq (s : Session) : ∀ step : Step, (s.step step).2.1 =
    ⟨step.resulting s.settings, s.tally.map (·.plus (step.entries s.settings))⟩
  | .active => s.eq_of_no_entries
  | .make given => by
    rw [step]
    cases ({} : Settings).override given <;> exact s.eq_of_no_entries
  | .accepts given tag => by
    rw [step]
    cases s.settingsOf given <;> exact s.eq_of_no_entries
  | .set given => by
    rw [step, Step.resulting]
    cases ({} : Settings).override given with
    | error fault => exact s.eq_of_no_entries
    | ok settings => exact eq_of_no_entries { s with settings }
  | .reset => eq_of_no_entries { s with settings := {} }
  | .configure given => by
    rw [step, Step.resulting]
    cases s.settings.override given with
    | error fault => exact s.eq_of_no_entries
    | ok settings => exact eq_of_no_entries { s with settings }
  | .record tokens scopes skipped => by
    rw [step, Step.entries]
    simp only [Tally.plus_singleton]
    rfl
  | .scan given request => by
    rw [step, Step.entries]
    cases s.settings.override given with
    | error fault => exact s.eq_of_no_entries
    | ok settings => exact s.foldl_record (request.options settings) [_]
  | .drive given request twice => by
    have hsettings : ({ settings := s.settings } : Session).settingsOf given =
        s.settingsOf given := by cases given <;> rfl
    rw [step, Step.entries, hsettings]
    cases s.settingsOf given with
    | error fault => exact s.eq_of_no_entries
    | ok settings => exact s.foldl_record (request.options settings) [_]
  | .scanMany given workers sources => by
    rw [step, Step.entries]
    cases s.settings.override given with
    | error fault => exact s.eq_of_no_entries
    | ok settings =>
      dsimp only
      split
      · exact s.eq_of_no_entries
      · rw [scanMany]
        dsimp only
        rw [s.foldl_record { settings }, List.map_map]
        rfl
  | .report type => s.eq_of_no_entries
  | .within given body aborts => by
    rw [step, Step.entries]
    cases ({} : Settings).override given with
    | error fault => exact s.eq_of_no_entries
    | ok settings =>
      dsimp only
      rw [steps_eq { s with settings } body]
      rfl
  | .profiled body aborts => by
    rw [step, Step.resulting]
    dsimp only
    -- The entries of the body are in its own tally, which is dropped.
    rw [steps_eq { s with tally := some {} } body]
    exact eq_of_no_entries { s with settings := Step.resultingAll s.settings body }

/-- What steps one after the other do to it. -/
private theorem steps_eq (s : Session) : ∀ steps : List Step, (s.steps steps).2.1 =
    ⟨Step.resultingAll s.settings steps, s.tally.map (·.plus (Step.entriesAll s.settings steps))⟩
  | [] => s.eq_of_no_entries
  | first :: rest => by
    -- The rest is taken under the settings that the first step results in.
    rw [steps, steps_eq _ rest, step_eq s first, Step.resultingAll, Step.entriesAll]
    simp only [Option.map_map, Function.comp_def, Tally.plus_append]

end

/-! ## Variables -/

/-- The variables of a session: the active settings, all tallies there are, and the place of the
    active one. -/
structure Store where
  settings : Settings := {}
  tallies : List Tally := []
  active : Option Nat := none
deriving DecidableEq

namespace Store

/-- What the variables say. -/
def session (st : Store) : Session := ⟨st.settings, st.active.bind (st.tallies[·]?)⟩

/-- The active tally is among those there are. -/
def Valid (st : Store) : Prop := ∀ i, st.active = some i → i < st.tallies.length

/-- The variables with entries added to the active tally, if there is one. -/
def count (st : Store) (es : List Entry) : Store :=
  match st.active with
  | none => st
  | some i => { st with tallies := st.tallies.modify i (·.plus es) }

/-- The variables with a new tally, which is active. -/
def openTally (st : Store) : Store :=
  { st with tallies := st.tallies ++ [{}], active := some st.tallies.length }

variable {st : Store} {es es' : List Entry}

/-- Counting leaves the settings as they are. -/
@[simp] theorem settings_count : (st.count es).settings = st.settings := by
  rw [count]
  split <;> rfl

/-- Counting leaves the same tally active. -/
@[simp] theorem active_count : (st.count es).active = st.active := by
  rw [count]
  split <;> rfl

/-- The active tally is the one that is counted in. -/
private theorem count_of_active {i : Nat} (h : st.active = some i) :
    (st.count es).tallies = st.tallies.modify i (·.plus es) := by
  rw [count, h]

/-- Nothing is counted where none is active. -/
theorem count_of_inactive (h : st.active = none) : st.count es = st := by
  rw [count, h]

/-- No entry, no change. -/
@[simp] theorem count_nil : st.count [] = st := by
  have hid : (fun t : Tally => t.plus []) = id := funext Tally.plus_nil
  rw [count]
  split
  · rfl
  · rw [hid, List.modify_id]

/-- Entries may be counted in two goes. -/
theorem count_append : st.count (es ++ es') = (st.count es).count es' := by
  cases h : st.active with
  | none => simp only [count_of_inactive h]
  | some i =>
    have hcomp : (fun t : Tally => t.plus (es ++ es')) = (·.plus es') ∘ (·.plus es) :=
      funext fun t => t.plus_append es es'
    simp only [count, h, hcomp, List.modify_modify_eq]

/-- Other settings count the same. -/
theorem count_withSettings (st : Store) (settings : Settings) (es : List Entry) :
    (Store.count { st with settings } es).tallies = (st.count es).tallies := by
  obtain ⟨former, tallies, active⟩ := st
  cases active <;> rfl

/-- Only tallies change. -/
theorem count_tallies_eq (st : Store) (es : List Entry) :
    { st with tallies := (st.count es).tallies } = st.count es := by
  obtain ⟨settings, tallies, active⟩ := st
  cases active <;> rfl

/-- A new tally is counted in, and those before it stay. -/
theorem count_openTally :
    (st.openTally.count es).tallies = st.tallies ++ [({} : Tally).plus es] := by
  rw [count_of_active rfl]
  exact List.modifyTailIdx_add (List.modifyHead _) 0 st.tallies [{}]

/-- Tallies that come up behind the others do not matter to what is counted in them. -/
private theorem count_tallies_mono {st' : Store} (hactive : st'.active = st.active)
    (h : st.tallies <+: st'.tallies) (es : List Entry) :
    (st.count es).tallies <+: (st'.count es).tallies := by
  cases hst : st.active with
  | none =>
    rw [count_of_inactive hst, count_of_inactive (hactive.trans hst)]
    exact h
  | some i =>
    rw [count_of_active hst, count_of_active (hactive.trans hst), List.prefix_iff_eq_take,
      List.take_modify, List.length_modify, ← List.prefix_iff_eq_take.mp h]

/-- From `st` to `st'` the settings become those given, the entries are added to the tally that is
    active before and after, and new tallies may come up behind the others. -/
structure Leads (st st' : Store) (settings : Settings) (es : List Entry) : Prop where
  settings_eq : st'.settings = settings
  active_eq : st'.active = st.active
  tallies : (st.count es).tallies <+: st'.tallies

/-- Without entries the tallies stay. -/
private theorem tallies_count_nil_isPrefix (st : Store) : (st.count []).tallies <+: st.tallies := by
  have hsame : (st.count []).tallies = st.tallies := congrArg tallies count_nil
  exact hsame ▸ List.prefix_rfl

/-- Nothing may happen. -/
theorem Leads.refl (st : Store) : st.Leads st st.settings [] :=
  ⟨rfl, rfl, st.tallies_count_nil_isPrefix⟩

/-- Entries are counted. -/
theorem Leads.count (st : Store) (es : List Entry) : st.Leads (st.count es) st.settings es :=
  ⟨settings_count, active_count, List.prefix_rfl⟩

/-- The settings are changed. -/
private theorem Leads.withSettings (st : Store) (settings : Settings) :
    st.Leads { st with settings } settings [] :=
  ⟨rfl, rfl, st.tallies_count_nil_isPrefix⟩

/-- One thing leads on from another, and the entries of both are counted. -/
theorem Leads.trans {st st' st'' : Store} {settings settings' : Settings}
    (h : st.Leads st' settings es) (h' : st'.Leads st'' settings' es') :
    st.Leads st'' settings' (es ++ es') where
  settings_eq := h'.settings_eq
  active_eq := h'.active_eq.trans h.active_eq
  tallies := by
    -- Tallies that come up in between stand behind the active one, so the entries that follow are
    -- added to the same tally with them or without them.
    have hactive : st'.active = (st.count es).active := h.active_eq.trans active_count.symm
    rw [count_append]
    exact (count_tallies_mono hactive h.tallies es').trans h'.tallies

/-- The active tally stays among those there are. -/
theorem Leads.valid {st' : Store} {settings : Settings} (h : st.Leads st' settings es)
    (hst : st.Valid) : st'.Valid := by
  intro i hi
  rw [h.active_eq] at hi
  have hlength : (st.tallies.modify i (·.plus es)).length ≤ st'.tallies.length :=
    count_of_active hi ▸ h.tallies.length_le
  rw [List.length_modify] at hlength
  exact Nat.lt_of_lt_of_le (hst i hi) hlength

/-- What the variables say afterwards. -/
theorem Leads.session_eq {st' : Store} {settings : Settings} (h : st.Leads st' settings es)
    (hst : st.Valid) : st'.session = ⟨settings, st.session.tally.map (·.plus es)⟩ := by
  rw [session, h.settings_eq, h.active_eq, session]
  cases hi : st.active with
  | none => rfl
  | some i =>
    have hlt : i < (st.tallies.modify i (·.plus es)).length := by
      rw [List.length_modify]
      exact hst i hi
    -- Tallies that came up meanwhile are behind the active one.
    obtain ⟨made, hmade⟩ := h.tallies
    rw [count_of_active hi] at hmade
    simp only [Option.bind_some, ← hmade, List.getElem?_append_left hlt, List.getElem?_modify_eq]
    rfl

end Store

/-! ## Steps in place -/

/-- Steps that write to the variables of a session.  What is written stays, whether or not a fault
    comes after it. -/
abbrev InPlace := EStateM Fault Store

namespace InPlace

variable {α β : Type}

/-- Carry out the body with other settings. -/
def withSettings (settings : Settings) (body : InPlace α) : InPlace α := do
  let former ← get
  set { former with settings }
  try body
  finally modify fun st => { st with settings := former.settings }

/-- Carry out the body with a new tally. -/
def withTally (body : InPlace α) : InPlace α := do
  let former ← get
  set former.openTally
  try body
  finally modify fun st => { st with active := former.active }

/-- Carry out the body with a copy of the variables and keep its answer.  What it writes to the
    variables is lost, but tallies are shared. -/
def isolated (body : InPlace α) : InPlace (Except Fault α) := do
  let former ← get
  let answer ← try pure (.ok (← body)) catch fault => pure (.error fault)
  modify fun st => { former with tallies := st.tallies }
  return answer

/-- Carry out the body.  Its failure is no reason to stop. -/
def attempt (body : InPlace Unit) : InPlace Unit :=
  try body catch _ => pure ()

/-- Count a scan in the active tally. -/
def record (tokens scopes skipped : Int) : InPlace Unit :=
  modify fun st =>
    match st.active with
    | none => st
    | some i => { st with tallies := st.tallies.modify i (·.record tokens scopes skipped) }

/-- Take what comes up next.  Which tags are of interest is looked up in the active settings. -/
def take (o : Scan.Options) (s : Scan) (event : Source.Event) : InPlace Scan := do
  let allowed := (← get).settings.allowed
  ofExcept (s.meet { o with settings := { o.settings with allowed } } event)

/-- Scan the input. -/
def scan (o : Scan.Options) (input : Input) : InPlace Result := do
  let last ← withSettings o.settings ((input.events o.file).foldlM (take o) .start)
  record last.consumed last.registry.size last.skipped
  return last.result o

/-- Scan the input with a scanner of its own, which cannot be used a second time. -/
def drive (o : Scan.Options) (input : Input) (twice : Bool) : InPlace Unit := do
  if twice then
    attempt (discard (scan o input))
    throw .spent
  else discard (scan o input)

/-- Scan sources one by one, each with a copy of the variables, and then look at the answers. -/
def scanMany (settings : Settings) (sources : List String) : InPlace (List Result) := do
  let answers ← sources.mapM fun source => isolated (scan { settings } (.source source))
  ofExcept (answers.mapM id)

/-! ## What is left behind -/

/-- Do something to the variables that steps leave behind. -/
def leaving (change : Store → Store) :
    EStateM.Result Fault Store α → EStateM.Result Fault Store α
  | .ok a st => .ok a (change st)
  | .error fault st => .error fault (change st)

/-- What is to be done in the end is done to whatever is left behind. -/
theorem run_finally (body : InPlace α) (change : Store → Store) (st : Store) :
    (tryFinally body (modify change)).run st = leaving change (body.run st) := by
  simp only [tryFinally, EStateM.run, Functor.map, EStateM.map, MonadFinally.tryFinally']
  cases body st <;> rfl

/-- A block with settings of its own writes the former ones back, however its body ends. -/
theorem run_withSettings (settings : Settings) (body : InPlace α) (st : Store) :
    (withSettings settings body).run st =
      leaving (fun st' => { st' with settings := st.settings }) (body.run { st with settings }) :=
  run_finally body _ _

/-- A block with a tally of its own makes the former one active again, however its body ends. -/
theorem run_withTally (body : InPlace α) (st : Store) :
    (withTally body).run st =
      leaving (fun st' => { st' with active := st.active }) (body.run st.openTally) :=
  run_finally body _ _

/-- The variables after an answer: it is counted if it is a result. -/
def answered (st : Store) : Except Fault Result → EStateM.Result Fault Store Result
  | .ok result => .ok result (st.count [result.entry])
  | .error fault => .error fault st

/-- To record is to count an entry. -/
theorem run_record (tokens scopes skipped : Int) (st : Store) :
    (record tokens scopes skipped).run st = .ok () (st.count [⟨tokens, scopes, skipped⟩]) := by
  simp only [record, EStateM.run_modify, Store.count, Tally.plus_singleton]

/-- While the settings of a scan are active, it takes an event as a run does. -/
theorem run_take {o : Scan.Options} {st : Store} (h : st.settings = o.settings) (s : Scan)
    (event : Source.Event) :
    (take o s event).run st = (ofExcept (s.meet o event) : InPlace Scan).run st := by
  -- The names looked up are those of the scan's own settings.
  have hsame : ({ o with settings := { o.settings with allowed := st.settings.allowed } } :
      Scan.Options) = o := by rw [h]
  rw [take, EStateM.run_bind, EStateM.run_get]
  dsimp only
  rw [hsame]

/-- Where its settings are active, a scan in place goes the way of the run. -/
theorem run_foldlM_take {o : Scan.Options} {st : Store} (h : st.settings = o.settings) (s : Scan)
    (events : List Source.Event) :
    (events.foldlM (take o) s).run st =
      (ofExcept (s.runFrom o events).last : InPlace Scan).run st := by
  -- By induction on the events.  Taking one leaves the variables as they are.
  induction events generalizing s with
  | nil => rfl
  | cons event events ih =>
    rw [List.foldlM_cons, EStateM.run_bind, run_take h, Scan.last_runFrom_cons]
    cases s.meet o event with
    | error fault => rfl
    | ok next => exact ih next

/-- A scan is counted if it comes to its end, and leaves all else as it was. -/
theorem run_scan (o : Scan.Options) (input : Input) (st : Store) :
    (scan o input).run st = answered st ((input.scan o).result? o) := by
  have hfollow : ((input.events o.file).foldlM (take o) .start).run
      { st with settings := o.settings } =
      (ofExcept (input.scan o).last : InPlace Scan).run { st with settings := o.settings } :=
    run_foldlM_take rfl _ _
  rw [scan, EStateM.run_bind, run_withSettings, hfollow, Run.result?_eq]
  cases (input.scan o).last with
  | error fault =>
    -- The former settings are back before the fault gets any further.
    rfl
  | ok last =>
    simp only [ofExcept, EStateM.run_pure, leaving, EStateM.run_bind, run_record]
    rfl

/-- Go on with a handler where steps fail. -/
def caught (handle : Fault → InPlace α) :
    EStateM.Result Fault Store α → EStateM.Result Fault Store α
  | .ok a st => .ok a st
  | .error fault st => (handle fault).run st

/-- What a handler does. -/
theorem run_catch (body : InPlace α) (handle : Fault → InPlace α) (st : Store) :
    (tryCatch body handle).run st = caught handle (body.run st) := by
  change EStateM.tryCatch body handle st = caught handle (body st)
  delta EStateM.tryCatch
  dsimp only
  cases body st <;> rfl

/-- Of what is written inside, only the tallies are kept. -/
theorem run_isolated (body : InPlace α) (st : Store) :
    (isolated body).run st =
      match body.run st with
      | .ok a st' => .ok (.ok a) { st with tallies := st'.tallies }
      | .error fault st' => .ok (.error fault) { st with tallies := st'.tallies } := by
  rw [isolated, EStateM.run_bind, EStateM.run_get]
  dsimp only
  rw [EStateM.run_bind, run_catch, EStateM.run_bind]
  cases body.run st <;> rfl

/-- Let go of what steps yield. -/
def valueless : EStateM.Result Fault Store α → EStateM.Result Fault Store Unit
  | .ok _ st => .ok () st
  | .error fault st => .error fault st

/-- The value is gone, and all else as before. -/
theorem run_discard (body : InPlace α) (st : Store) :
    (discard body : InPlace Unit).run st = valueless (body.run st) := by
  simp only [discard, Functor.mapConst, Function.comp, EStateM.run, EStateM.map]
  cases body st <;> rfl

/-- A failure is forgotten, but not what was written before it. -/
theorem run_attempt (body : InPlace Unit) (st : Store) :
    (attempt body).run st =
      match body.run st with
      | .ok _ st' => .ok () st'
      | .error _ st' => .ok () st' := by
  rw [attempt, run_catch]
  cases body.run st <;> rfl

/-- A worker that scans a source adds to the tally that it shares and changes nothing else. -/
theorem run_isolated_scan (settings : Settings) (source : String) (st : Store) :
    (isolated (scan { settings } (.source source))).run st =
      .ok (sourceAnswer settings source) (st.count (completed [sourceAnswer settings source])) := by
  have hanswer : ((Input.source source).scan { settings }).result? { settings } =
      sourceAnswer settings source := rfl
  rw [run_isolated, run_scan, hanswer]
  cases sourceAnswer settings source with
  | ok result => exact congrArg (EStateM.Result.ok _) (Store.count_tallies_eq st _)
  | error fault => exact congrArg (EStateM.Result.ok _) Store.count_nil.symm

/-- All sources are scanned and counted, whichever of them fail. -/
theorem run_scanMany (settings : Settings) (sources : List String) (st : Store) :
    (scanMany settings sources).run st =
      (ofExcept ((sources.map (sourceAnswer settings)).mapM id) : InPlace (List Result)).run
        (st.count (completed (sources.map (sourceAnswer settings)))) := by
  have hall : (sources.mapM fun source => isolated (scan { settings } (.source source))).run st =
      .ok (sources.map (sourceAnswer settings))
        (st.count (completed (sources.map (sourceAnswer settings)))) := by
    induction sources generalizing st with
    | nil => exact congrArg (EStateM.Result.ok _) Store.count_nil.symm
    | cons source sources ih =>
      -- A fault is kept as an answer, so that the other sources are scanned nevertheless.
      rw [List.mapM_cons, EStateM.run_bind, run_isolated_scan]
      dsimp only
      rw [EStateM.run_bind, ih, List.map_cons, completed_cons _ (sources.map _),
        Store.count_append]
      rfl
  rw [scanMany, EStateM.run_bind, hall]

end InPlace

/-- The variables after steps in place, whether or not they failed. -/
def Store.after {α : Type} (st : Store) (x : InPlace α) : Store :=
  match x.run st with
  | .ok _ st' => st'
  | .error _ st' => st'

namespace Store

variable {α β : Type} (st : Store)

/-- Looking at the variables changes nothing. -/
theorem after_get_bind (f : Store → InPlace β) : st.after (get >>= f) = st.after (f st) := rfl

/-- A fault ends the steps and leaves the variables as they are. -/
theorem after_ofExcept_bind (x : Except Fault α) (f : α → InPlace β) :
    st.after (ofExcept x >>= f) =
      match x with
      | .ok a => st.after (f a)
      | .error _ => st := by
  cases x <;> rfl

/-- What becomes of a value does not matter to the variables. -/
theorem after_discard (x : InPlace α) : st.after (discard x) = st.after x := by
  rw [after, InPlace.run_discard, after]
  cases x.run st <;> rfl

/-- An attempt always ends well. -/
theorem run_attempt_eq (x : InPlace Unit) : (InPlace.attempt x).run st = .ok () (st.after x) := by
  rw [InPlace.run_attempt, after]
  cases x.run st <;> rfl

/-- The steps after an attempt start from what it left behind. -/
theorem after_attempt_bind (x : InPlace Unit) (f : Unit → InPlace β) :
    st.after (InPlace.attempt x >>= f) = (st.after x).after (f ()) := by
  rw [after, EStateM.run_bind, run_attempt_eq]
  rfl

/-- Giving up at the end is no change. -/
theorem after_aborting (x : InPlace Unit) (aborts : Bool) :
    st.after (do x; if aborts then throw .aborted) = st.after x := by
  rw [after, EStateM.run_bind, after]
  cases x.run st <;> cases aborts <;> rfl

/-- The settings are those from before. -/
theorem after_withSettings (settings : Settings) (body : InPlace α) :
    st.after (InPlace.withSettings settings body) =
      { Store.after { st with settings } body with settings := st.settings } := by
  rw [after, InPlace.run_withSettings, after]
  cases body.run { st with settings } <;> rfl

/-- The active tally is the one from before. -/
theorem after_withTally (body : InPlace α) :
    st.after (InPlace.withTally body) = { st.openTally.after body with active := st.active } := by
  rw [after, InPlace.run_withTally, after]
  cases body.run st.openTally <;> rfl

/-- What a scan leaves behind. -/
theorem after_scan (o : Scan.Options) (input : Input) :
    st.after (InPlace.scan o input) = st.count (completed [(input.scan o).result? o]) := by
  rw [after, InPlace.run_scan]
  cases (input.scan o).result? o with
  | ok result => rfl
  | error fault => exact count_nil.symm

/-- A scanner of its own leaves the same, used once or twice. -/
theorem after_drive (o : Scan.Options) (input : Input) (twice : Bool) :
    st.after (InPlace.drive o input twice) = st.count (completed [(input.scan o).result? o]) := by
  have hscan : st.after (discard (InPlace.scan o input)) =
      st.count (completed [(input.scan o).result? o]) := by rw [after_discard, after_scan]
  rw [InPlace.drive]
  split
  · -- The second attempt is refused before it touches anything.
    rw [after_attempt_bind, hscan]
    rfl
  · exact hscan

/-- Many sources are counted together. -/
theorem after_scanMany (settings : Settings) (sources : List String) :
    st.after (InPlace.scanMany settings sources) =
      st.count (completed (sources.map (sourceAnswer settings))) := by
  rw [after, InPlace.run_scanMany]
  cases (sources.map (sourceAnswer settings)).mapM id <;> rfl

end Store

end Session

open Session (InPlace Store)

/-! ## All steps -/

mutual

/-- Take a step in place. -/
def Step.inPlace : Step → InPlace Unit
  | .active => pure ()
  | .make given => do
    let _ ← ofExcept (({} : Settings).override given)
  | .accepts given _ => do
    let _ ← ofExcept ((← get).session.settingsOf given)
  | .set given => do
    let settings ← ofExcept (({} : Settings).override given)
    modify fun st => { st with settings }
  | .reset => modify fun st => { st with settings := {} }
  | .configure given => do
    let settings ← ofExcept ((← get).settings.override given)
    modify fun st => { st with settings }
  | .record tokens scopes skipped => InPlace.record tokens scopes skipped
  | .scan given request => do
    let settings ← ofExcept ((← get).settings.override given)
    discard (InPlace.scan (request.options settings) request.input)
  | .drive given request twice => do
    let settings ← ofExcept ((← get).session.settingsOf given)
    InPlace.drive (request.options settings) request.input twice
  | .scanMany given workers sources => do
    let settings ← ofExcept ((← get).settings.override given)
    if workers.any (· ≤ 0) then throw .noWorkers
    else discard (InPlace.scanMany settings sources)
  | .report type => throw type.fault
  | .within given body aborts => do
    let settings ← ofExcept (({} : Settings).override given)
    InPlace.withSettings settings do
      Step.allInPlace body
      if aborts then throw .aborted
  | .profiled body aborts =>
    InPlace.withTally do
      Step.allInPlace body
      if aborts then throw .aborted

/-- Take steps one after the other in place. -/
def Step.allInPlace : List Step → InPlace Unit
  | [] => pure ()
  | first :: rest => do
    InPlace.attempt first.inPlace
    Step.allInPlace rest

end

namespace Step

mutual

/-- What a step does to the settings and to the tallies. -/
theorem leads_after (st : Store) : ∀ step : Step,
    st.Leads (st.after step.inPlace) (step.resulting st.settings) (step.entries st.settings)
  | .active => .refl st
  | .make given => by
    rw [inPlace, Store.after_ofExcept_bind]
    cases ({} : Settings).override given <;> exact .refl st
  | .accepts given tag => by
    rw [inPlace, Store.after_get_bind, Store.after_ofExcept_bind]
    cases st.session.settingsOf given <;> exact .refl st
  | .set given => by
    rw [inPlace, Store.after_ofExcept_bind, resulting]
    cases ({} : Settings).override given with
    | error fault => exact .refl st
    | ok settings => exact .withSettings st settings
  | .reset => .withSettings st {}
  | .configure given => by
    rw [inPlace, Store.after_get_bind, Store.after_ofExcept_bind, resulting]
    cases st.settings.override given with
    | error fault => exact .refl st
    | ok settings => exact .withSettings st settings
  | .record tokens scopes skipped => by
    rw [inPlace, Store.after, InPlace.run_record]
    exact .count st _
  | .scan given request => by
    rw [inPlace, Store.after_get_bind, Store.after_ofExcept_bind, entries]
    cases st.settings.override given with
    | error fault => exact .refl st
    | ok settings =>
      dsimp only
      rw [Store.after_discard, Store.after_scan]
      exact .count st _
  | .drive given request twice => by
    have hsettings : ({ settings := st.settings } : Session).settingsOf given =
        st.session.settingsOf given := by cases given <;> rfl
    rw [inPlace, Store.after_get_bind, Store.after_ofExcept_bind, entries, hsettings]
    cases st.session.settingsOf given with
    | error fault => exact .refl st
    | ok settings =>
      dsimp only
      rw [Store.after_drive]
      exact .count st _
  | .scanMany given workers sources => by
    rw [inPlace, Store.after_get_bind, Store.after_ofExcept_bind, entries]
    cases st.settings.override given with
    | error fault => exact .refl st
    | ok settings =>
      dsimp only
      split
      · exact .refl st
      · rw [Store.after_discard, Store.after_scanMany]
        exact .count st _
  | .report type => .refl st
  | .within given body aborts => by
    rw [inPlace, Store.after_ofExcept_bind, entries]
    cases ({} : Settings).override given with
    | error fault => exact .refl st
    | ok settings =>
      have hbody := leadsAll_after { st with settings } body
      dsimp only
      -- What the body wrote to the settings is written over; what it added to the tallies stays.
      rw [Store.after_withSettings, Store.after_aborting]
      exact ⟨rfl, hbody.active_eq, Store.count_withSettings st settings _ ▸ hbody.tallies⟩
  | .profiled body aborts => by
    have hbody := leadsAll_after st.openTally body
    have hnone : (Step.profiled body aborts).entries st.settings = [] := rfl
    rw [inPlace, Store.after_withTally, Store.after_aborting, hnone]
    refine ⟨hbody.settings_eq, rfl, ?_⟩
    -- The body adds to the last of the tallies there were when it began, which is its own.
    rw [Store.count_nil]
    exact (List.prefix_append _ _).trans (Store.count_openTally ▸ hbody.tallies)

/-- Steps one after the other lead to the settings and the entries of them all. -/
private theorem leadsAll_after (st : Store) : ∀ steps : List Step,
    st.Leads (st.after (allInPlace steps)) (resultingAll st.settings steps)
      (entriesAll st.settings steps)
  | [] => .refl st
  | first :: rest => by
    have hfirst := leads_after st first
    -- The first step may have failed; what it left behind is where the rest begins.
    have hrest := leadsAll_after (st.after first.inPlace) rest
    rw [hfirst.settings_eq] at hrest
    rw [allInPlace, Store.after_attempt_bind]
    exact hfirst.trans hrest

end

/-- The step carries out scans. -/
def isScan : Step → Bool
  | .scan .. | .drive .. | .scanMany .. => true
  | _ => false

/-- Scans leave the settings. -/
private theorem resulting_of_isScan {step : Step} (h : step.isScan) (s : Settings) :
    step.resulting s = s := by
  cases step <;> first | rfl | cases h

/-- A scan among the steps. -/
theorem run_scan {st : Store} {given : Overrides} {settings : Settings}
    (h : st.settings.override given = .ok settings) (request : Request) :
    (Step.scan given request).inPlace.run st =
      InPlace.valueless (InPlace.answered st (request.answer settings)) := by
  have hopen : (Step.scan given request).inPlace.run st =
      (do
        let settings ← ofExcept (st.settings.override given)
        discard (InPlace.scan (request.options settings) request.input) : InPlace Unit).run st :=
    rfl
  rw [hopen, h, Request.answer, ← InPlace.run_scan, ← InPlace.run_discard]
  rfl

/-- Settings that are refused fail and change nothing. -/
theorem run_configure_of_error {st : Store} {given : Overrides} {fault : Fault}
    (h : st.settings.override given = .error fault) :
    (Step.configure given).inPlace.run st = .error fault st := by
  have hopen : (Step.configure given).inPlace.run st =
      (do
        let settings ← ofExcept (st.settings.override given)
        modify fun st => { st with settings } : InPlace Unit).run st := rfl
  rw [hopen, h]
  rfl

/-- Settings that replace all others change nothing, either, where they are refused. -/
theorem run_set_of_error {given : Overrides} {fault : Fault}
    (h : ({} : Settings).override given = .error fault) (st : Store) :
    (Step.set given).inPlace.run st = .error fault st := by
  rw [inPlace, h]
  rfl

/-- Steps one after the other come to their end, whatever fails among them. -/
theorem run_allInPlace (st : Store) (steps : List Step) :
    (allInPlace steps).run st = .ok () (st.after (allInPlace steps)) := by
  -- By induction on the steps, each of which is an attempt.
  induction steps generalizing st with
  | nil => rfl
  | cons first rest ih =>
    rw [allInPlace, Store.after_attempt_bind, EStateM.run_bind, Store.run_attempt_eq]
    exact ih _

/-- How a block ends whose body may give up. -/
def ending (aborts : Bool) (st : Store) : EStateM.Result Fault Store Unit :=
  if aborts then .error .aborted st else .ok () st

/-- A block with settings of its own gives up only where its body does. -/
theorem run_within {given : Overrides} {settings : Settings}
    (h : ({} : Settings).override given = .ok settings) (body : List Step) (aborts : Bool)
    (st : Store) :
    (Step.within given body aborts).inPlace.run st =
      ending aborts (st.after (Step.within given body aborts).inPlace) := by
  have hopen : (Step.within given body aborts).inPlace =
      InPlace.withSettings settings (do allInPlace body; if aborts then throw .aborted) := by
    rw [inPlace, h]
    rfl
  rw [hopen, Store.after_withSettings, Store.after_aborting, InPlace.run_withSettings,
    EStateM.run_bind, run_allInPlace]
  cases aborts <;> rfl

/-- A block with a tally of its own gives up only where its body does. -/
theorem run_profiled (body : List Step) (aborts : Bool) (st : Store) :
    (Step.profiled body aborts).inPlace.run st =
      ending aborts (st.after (Step.profiled body aborts).inPlace) := by
  rw [inPlace, Store.after_withTally, Store.after_aborting, InPlace.run_withTally,
    EStateM.run_bind, run_allInPlace]
  cases aborts <;> rfl

/-- A block with a tally of its own leaves it behind the others, with what its body added to it. -/
private theorem tallies_profiled (body : List Step) (aborts : Bool) (st : Store) :
    st.tallies ++ [({} : Tally).plus (entriesAll st.settings body)] <+:
      (st.after (Step.profiled body aborts).inPlace).tallies := by
  rw [inPlace, Store.after_withTally, Store.after_aborting]
  exact Store.count_openTally ▸ (leadsAll_after st.openTally body).tallies

end Step

namespace Session

/-- The outcome of such a block shows its tally. -/
private theorem outcome_profiled (s : Session) (body : List Step) (aborts : Bool) :
    (s.step (.profiled body aborts)).1 =
      .body (({ s with tally := some {} } : Session).steps body).1
        (some (({} : Tally).plus (Step.entriesAll s.settings body))) (abortion aborts) := by
  rw [step]
  dsimp only
  rw [steps_eq]
  rfl

/-- The settings and the tally are scoped by blocks, from every state and for steps of every kind.
    The variables go the way of the session.  Around any body at all, a block with settings of its
    own leaves the settings it found, and one with a tally of its own the tally.  Around steps, it
    also leaves all counters that it found; changes of the settings stay; and its own counters are
    sums over the records and the completed scans of its body, those of inner such blocks aside.
    Scans leave the settings, and one that fails adds nothing.  Settings that are refused change
    nothing. -/
theorem steps_scoped (st : Store) (hst : st.Valid) :
    (∀ steps : List Step,
      (st.after (Step.allInPlace steps)).Valid ∧
      (st.after (Step.allInPlace steps)).session = (st.session.steps steps).2.1 ∧
      st.Leads (st.after (Step.allInPlace steps)) (Step.resultingAll st.settings steps)
        (Step.entriesAll st.settings steps)) ∧
    (∀ (settings : Settings) (body : InPlace Unit),
      (st.after (InPlace.withSettings settings body)).settings = st.settings ∧
      (st.after (InPlace.withTally body)).active = st.active) ∧
    (∀ (given : Overrides) (body : List Step) (aborts : Bool) (settings : Settings),
      ({} : Settings).override given = .ok settings →
      ∃ st', (Step.within given body aborts).inPlace.run st = Step.ending aborts st' ∧
        st.Leads st' st.settings (Step.entriesAll settings body)) ∧
    (∀ (body : List Step) (aborts : Bool),
      ∃ st', (Step.profiled body aborts).inPlace.run st = Step.ending aborts st' ∧
        st'.settings = Step.resultingAll st.settings body ∧ st'.active = st.active ∧
        st.tallies ++ [({} : Tally).plus (Step.entriesAll st.settings body)] <+: st'.tallies ∧
        (st.session.step (.profiled body aborts)).1 =
          .body (({ st.session with tally := some {} } : Session).steps body).1
            (some (({} : Tally).plus (Step.entriesAll st.settings body))) (abortion aborts)) ∧
    (∀ step : Step, step.isScan → (st.after step.inPlace).settings = st.settings) ∧
    (∀ (given : Overrides) (request : Request) (settings : Settings),
      st.settings.override given = .ok settings →
      (∀ result, request.answer settings = .ok result →
        (Step.scan given request).inPlace.run st = .ok () (st.count [result.entry])) ∧
      (∀ fault, request.answer settings = .error fault →
        (Step.scan given request).inPlace.run st = .error fault st)) ∧
    (∀ (given : Overrides) (fault : Fault), st.settings.override given = .error fault →
      (Step.configure given).inPlace.run st = .error fault st) ∧
    (∀ (given : Overrides) (fault : Fault), ({} : Settings).override given = .error fault →
      (Step.set given).inPlace.run st = .error fault st) := by
  refine ⟨fun steps => ?_, fun settings body => ?_, fun given body aborts settings h => ?_,
    fun body aborts => ?_, fun step h => ?_,
    fun given request settings h => ⟨fun result hresult => ?_, fun fault hfault => ?_⟩,
    fun given fault h => ?_, fun given fault h => ?_⟩
  · -- Steps of any kind, in variables and in a session.
    have hleads := Step.leadsAll_after st steps
    exact ⟨hleads.valid hst, by rw [hleads.session_eq hst, steps_eq]; rfl, hleads⟩
  · -- Blocks around anything.
    exact ⟨by rw [Store.after_withSettings], by rw [Store.after_withTally]⟩
  · have hleads := Step.leads_after st (.within given body aborts)
    rw [Step.entries, h] at hleads
    exact ⟨_, Step.run_within h body aborts st, hleads⟩
  · have hleads := Step.leads_after st (.profiled body aborts)
    exact ⟨_, Step.run_profiled body aborts st, hleads.settings_eq, hleads.active_eq,
      Step.tallies_profiled body aborts st, st.session.outcome_profiled body aborts⟩
  · rw [(Step.leads_after st step).settings_eq, Step.resulting_of_isScan h]
  · rw [Step.run_scan h, hresult]
    rfl
  · rw [Step.run_scan h, hfault]
    rfl
  · exact Step.run_configure_of_error h
  · exact Step.run_set_of_error h st

/-- A body that gives up, with a record, a scan in an inner block that gives up as well, a tally
    further in, a change of the settings, settings that are refused, and a scan that is
    cancelled. -/
theorem steps_scoped_nested :
    let st : Store := { tallies := [{ tokens := 5, scopes := 2, scans := 1 }], active := some 0 }
    let body : List Step :=
      [.record 4 1 0,
        .within { allowed := some ["note"] }
          [.scan {} { input := .tokens [] }, .profiled [.record 9 9 9] true, .reset] true,
        .configure { policy := some (.text "skip") },
        .set { policy := some (.text "none") },
        .scan {} { input := .tokens [.identifier "a" { line := 1 }], cancelAfter := some 0 }]
    st.Valid ∧
    ∃ st', (Step.profiled body true).inPlace.run st = .error .aborted st' ∧
      st'.settings = { policy := .skip } ∧ st'.active = some 0 ∧
      [{ tokens := 5, scopes := 2, scans := 1 }, { tokens := 4, scopes := 2, scans := 2 }] <+:
        st'.tallies := by
  intro st body
  have hst : st.Valid := by
    intro i hi
    cases hi
    decide
  obtain ⟨-, -, -, hprofiled, -⟩ := steps_scoped st hst
  obtain ⟨st', hrun, hsettings, hactive, htallies, -⟩ := hprofiled body true
  have hbody : Step.resultingAll st.settings body = { policy := .skip } := by decide
  have hentries : Step.entriesAll st.settings body = [⟨4, 1, 0⟩, ⟨0, 1, 0⟩] := by decide
  rw [hbody] at hsettings
  rw [hentries] at htallies
  exact ⟨hst, st', hrun, hsettings, hactive, htallies⟩

end Session

end ScopeTags
