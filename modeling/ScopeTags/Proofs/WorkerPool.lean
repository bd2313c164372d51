import Mathlib.Data.List.Basic
import Mathlib.Logic.Relation
import ScopeTags.Proofs.SessionInPlace

/-!
# Scanning many sources at once

A session scans many sources one by one.  Here workers scan them side by side.  Each has settings
of its own, as they are copied to it, and goes through its source event by event, while other
workers take their turns in between.  Tallies are shared, and a worker adds to them in one go where
its scan comes to its end.  Nothing is said about whose turn it is, but that no more workers than
allowed are busy.

## Key results

- `Pool.Accords.move`: what a turn of any worker keeps
- `Pool.exists_move`: there is a turn to take until all scans are finished
- `scanMany_eq_scan_each`: all ways to take turns end alike, as if sources were scanned one by one
-/

namespace ScopeTags

/-- What a scan came to, if that is what was carried out. -/
def Outcome.answer? : Outcome → Option (Except Fault Result)
  | .scanned o run => some (run.result? o)
  | _ => none

/-- The results among answers, if all are results, or else the first fault. -/
def Outcome.ofAnswers (answers : List (Except Fault Result)) : Outcome :=
  match answers.mapM id with
  | .ok all => .results all
  | .error first => .fault first

/-- Results alone are all there. -/
private theorem mapM_id_results (results : List Result) :
    (results.map fun result => (.ok result : Except Fault Result)).mapM id = .ok results := by
  induction results with
  | nil => rfl
  | cons result results ih =>
    rw [List.map_cons, List.mapM_cons, ih]
    rfl

/-- The first fault is the one that counts. -/
private theorem mapM_id_fault (before : List Result) (fault : Fault)
    (after : List (Except Fault Result)) :
    (before.map Except.ok ++ Except.error fault :: after).mapM id = .error fault := by
  induction before with
  | nil => rfl
  | cons result before ih =>
    rw [List.map_cons, List.cons_append, List.mapM_cons, ih]
    rfl

/-- Either all answers are results, or one is the first fault. -/
private theorem results_or_first_fault (answers : List (Except Fault Result)) :
    (∃ results : List Result, answers = results.map .ok) ∨
    ∃ (before : List Result) (fault : Fault) (after : List (Except Fault Result)),
      answers = before.map .ok ++ .error fault :: after := by
  induction answers with
  | nil => exact .inl ⟨[], rfl⟩
  | cons answer answers ih =>
    cases answer with
    | error fault => exact .inr ⟨[], fault, answers, rfl⟩
    | ok result =>
      obtain ⟨results, rfl⟩ | ⟨before, fault, after, rfl⟩ := ih
      · exact .inl ⟨result :: results, rfl⟩
      · exact .inr ⟨result :: before, fault, after, rfl⟩

/-- What is made of the answers in either case. -/
private theorem Outcome.ofAnswers_cases (answers : List (Except Fault Result)) :
    (∃ all : List Result, answers = all.map .ok ∧ ofAnswers answers = .results all) ∨
    ∃ (before : List Result) (first : Fault) (after : List (Except Fault Result)),
      answers = before.map .ok ++ .error first :: after ∧ ofAnswers answers = .fault first := by
  obtain ⟨all, rfl⟩ | ⟨before, first, after, rfl⟩ := results_or_first_fault answers
  · exact .inl ⟨all, rfl, by rw [ofAnswers, mapM_id_results]⟩
  · exact .inr ⟨before, first, after, rfl, by rw [ofAnswers, mapM_id_fault]⟩

/-- Entries may be added in any order. -/
private theorem Tally.plus_comm (t : Tally) (es es' : List Entry) :
    (t.plus es).plus es' = (t.plus es').plus es := by
  simp only [Tally.plus, Tally.mk.injEq]
  omega

/-- The result of a run is that of the rest of it, after the first event. -/
private theorem Scan.result?_runFrom_cons (o : Scan.Options) (s : Scan) (event : Source.Event)
    (events : List Source.Event) :
    (s.runFrom o (event :: events)).result? o =
      s.meet o event >>= fun next => (next.runFrom o events).result? o := by
  rw [Run.result?_eq, Scan.last_runFrom_cons]
  cases s.meet o event with
  | error fault => rfl
  | ok next => exact (Run.result?_eq o _).symm

namespace Session

/-- A worker that takes an event goes the way of the run, and leaves the variables as they are. -/
private theorem InPlace.meet_of_run_take_ok {o : Scan.Options} {st st' : Store} {s next : Scan}
    {event : Source.Event} (h : st.settings = o.settings)
    (hrun : (take o s event).run st = .ok next st') : s.meet o event = .ok next ∧ st' = st := by
  rw [run_take h] at hrun
  cases hmeet : s.meet o event with
  | error fault =>
    rw [hmeet] at hrun
    cases hrun
  | ok met =>
    rw [hmeet] at hrun
    cases hrun
    exact ⟨rfl, rfl⟩

/-- A worker that an event stops goes the way of the run, too, and leaves the variables. -/
private theorem InPlace.meet_of_run_take_error {o : Scan.Options} {st st' : Store} {s : Scan}
    {event : Source.Event} {fault : Fault} (h : st.settings = o.settings)
    (hrun : (take o s event).run st = .error fault st') :
    s.meet o event = .error fault ∧ st' = st := by
  rw [run_take h] at hrun
  cases hmeet : s.meet o event with
  | error stopped =>
    rw [hmeet] at hrun
    cases hrun
    exact ⟨rfl, rfl⟩
  | ok met =>
    rw [hmeet] at hrun
    cases hrun

/-- Entries can be added in any order. -/
private theorem Store.count_comm (st : Store) (es es' : List Entry) :
    (st.count es).count es' = (st.count es').count es := by
  cases h : st.active with
  | none => simp only [Store.count_of_inactive h]
  | some i =>
    have hcomp : (Tally.plus · es') ∘ (Tally.plus · es) = (Tally.plus · es) ∘ (Tally.plus · es') :=
      funext fun t => t.plus_comm es es'
    simp only [Store.count, h, List.modify_modify_eq, hcomp]

/-- The session hands over what is made of the answers. -/
private theorem gather_sources (settings : Settings) (sources : List String) :
    gather ((sources.map fun source => (Input.source source).scan { settings }).map
      (({ settings } : Scan.Options), ·)) =
      .ofAnswers (sources.map (sourceAnswer settings)) := by
  rw [gather, Outcome.ofAnswers, List.map_map, List.mapM_map, List.mapM_map]
  rfl

/-! ## Workers -/

/-- How far the scan of a source is. -/
inductive Progress where
  | waiting
  /-- A worker is at it: the settings active for this worker, the state of the scan, and what is to
      come up yet. -/
  | working (own : Settings) (s : Scan) (left : List Source.Event)
  | finished (answer : Except Fault Result)

/-- The scan of a source. -/
structure Job where
  source : String
  progress : Progress := .waiting

namespace Job

/-- What the scan came to, if it is finished. -/
def answer? (job : Job) : Option (Except Fault Result) :=
  match job.progress with
  | .finished answer => some answer
  | _ => none

/-- A worker is at the scan. -/
def isWorking (job : Job) : Bool :=
  match job.progress with
  | .working .. => true
  | _ => false

/-- How many turns it takes to finish the scan, at most. -/
def work (job : Job) : Nat :=
  match job.progress with
  | .waiting => ((Input.source job.source).events none).length + 2
  | .working _ _ left => left.length + 1
  | .finished _ => 0

/-- The scan goes, or went, the way of a scan of the source by itself. -/
def Fits (settings : Settings) (job : Job) : Prop :=
  match job.progress with
  | .waiting => True
  | .working own s left =>
    own = settings ∧
      (s.runFrom { settings } left).result? { settings } = sourceAnswer settings job.source
  | .finished answer => answer = sourceAnswer settings job.source

end Job

/-- Workers at the scans of many sources, and the variables of the session that asked for them. -/
structure Pool where
  store : Store
  jobs : List Job

namespace Pool

/-- All scans are waiting for a worker. -/
def submit (st : Store) (sources : List String) : Pool := ⟨st, sources.map ({ source := · })⟩

/-- What the finished scans came to. -/
def answers (pool : Pool) : List (Except Fault Result) := pool.jobs.filterMap Job.answer?

/-- All scans are finished. -/
def IsDone (pool : Pool) : Prop := ∀ job ∈ pool.jobs, job.answer?.isSome

/-- How many turns it takes to finish all scans, at most. -/
def work (pool : Pool) : Nat := pool.jobs.foldr (fun job rest => job.work + rest) 0

/-- What is handed to the session. -/
def outcome (pool : Pool) : Outcome := .ofAnswers pool.answers

/-- A worker takes its turn.  It starts a scan with the given settings as its own, if no more than
    `limit` workers get busy by it; or it takes the next event, which may stop it; or, at the end,
    it counts the scan. -/
inductive Moves (settings : Settings) (limit : Nat) : Pool → Pool → Prop
  | start {store : Store} {before after : List Job} {source : String}
      (hlimit : (before ++ after).countP Job.isWorking < limit) :
      Moves settings limit
        ⟨store, before ++ ⟨source, .waiting⟩ :: after⟩
        ⟨store, before ++
          ⟨source, .working settings .start ((Input.source source).events none)⟩ :: after⟩
  | advance {store st' : Store} {before after : List Job} {source : String} {own : Settings}
      {s next : Scan} {event : Source.Event} {left : List Source.Event}
      (h : (InPlace.take { settings } s event).run { store with settings := own } = .ok next st') :
      Moves settings limit
        ⟨store, before ++ ⟨source, .working own s (event :: left)⟩ :: after⟩
        ⟨{ store with tallies := st'.tallies }, before ++
          ⟨source, .working st'.settings next left⟩ :: after⟩
  | stop {store st' : Store} {before after : List Job} {source : String} {own : Settings}
      {s : Scan} {event : Source.Event} {left : List Source.Event} {fault : Fault}
      (h : (InPlace.take { settings } s event).run { store with settings := own } =
        .error fault st') :
      Moves settings limit
        ⟨store, before ++ ⟨source, .working own s (event :: left)⟩ :: after⟩
        ⟨{ store with tallies := st'.tallies }, before ++
          ⟨source, .finished (.error fault)⟩ :: after⟩
  | finish {store st' : Store} {before after : List Job} {source : String} {own : Settings}
      {s : Scan}
      (h : (InPlace.record s.consumed s.registry.size s.skipped).run
        { store with settings := own } = .ok () st') :
      Moves settings limit
        ⟨store, before ++ ⟨source, .working own s []⟩ :: after⟩
        ⟨{ store with tallies := st'.tallies }, before ++
          ⟨source, .finished (.ok (s.result { settings }))⟩ :: after⟩

/-- Workers take turns. -/
abbrev Reaches (settings : Settings) (limit : Nat) : Pool → Pool → Prop :=
  Relation.ReflTransGen (Moves settings limit)

/-! ## What turns keep -/

/-- So far, the scans of the sources went as they go one by one, and the finished ones are
    counted. -/
structure Accords (st : Store) (settings : Settings) (sources : List String) (pool : Pool) :
    Prop where
  sources_eq : pool.jobs.map Job.source = sources
  fits : ∀ job ∈ pool.jobs, job.Fits settings
  store_eq : pool.store = st.count (completed pool.answers)

variable {st store : Store} {settings : Settings} {sources : List String} {limit : Nat}

/-- At the start no scan is finished. -/
private theorem accords_submit (st : Store) (settings : Settings) (sources : List String) :
    (submit st sources).Accords st settings sources where
  sources_eq := by simp [submit, Function.comp_def]
  fits := by simp [submit, Job.Fits]
  store_eq := by
    have hnone : (submit st sources).answers = [] := by simp [answers, submit, Job.answer?]
    rw [hnone]
    exact Store.count_nil.symm

/-- One scan gets on, and is counted if it came to its end by that. -/
private theorem Accords.replace {before after : List Job} {job : Job}
    (h : Accords st settings sources ⟨store, before ++ job :: after⟩) (job' : Job)
    (hjob : job.answer? = none) (hsource : job'.source = job.source) (hfits : job'.Fits settings) :
    Accords st settings sources
      ⟨store.count (completed job'.answer?.toList), before ++ job' :: after⟩ where
  sources_eq := by simpa [hsource] using h.sources_eq
  fits := by
    intro other hother
    rcases List.mem_append.mp hother with hbefore | hafter
    · exact h.fits other (List.mem_append_left _ hbefore)
    · rcases List.mem_cons.mp hafter with rfl | hafter
      · exact hfits
      · exact h.fits other (List.mem_append_right _ (List.mem_cons_of_mem _ hafter))
  store_eq := by
    have hstore : store = st.count (completed (before.filterMap Job.answer?) ++
        completed (after.filterMap Job.answer?)) := by
      have hstore := h.store_eq
      rwa [answers, List.filterMap_append, List.filterMap_cons_none hjob,
        completed_append] at hstore
    have hanswers : (before ++ job' :: after).filterMap Job.answer? =
        before.filterMap Job.answer? ++ (job'.answer?.toList ++ after.filterMap Job.answer?) := by
      rw [List.filterMap_append, List.filterMap_cons]
      cases job'.answer? <;> rfl
    rw [answers, hanswers, hstore]
    -- The new entry goes between those there are, but that makes no difference.
    simp only [completed_append, Store.count_append]
    exact Store.count_comm _ _ _

/-- One scan gets on without coming to its end. -/
private theorem Accords.replace_uncounted {before after : List Job} {job job' : Job}
    (h : Accords st settings sources ⟨store, before ++ job :: after⟩)
    (hjob : job.answer? = none) (hsource : job'.source = job.source) (hfits : job'.Fits settings)
    (hnone : completed job'.answer?.toList = []) :
    Accords st settings sources ⟨store, before ++ job' :: after⟩ := by
  have hnew := h.replace job' hjob hsource hfits
  rwa [hnone, Store.count_nil] at hnew

/-- A turn of any worker keeps all that. -/
theorem Accords.move {pool pool' : Pool} (h : pool.Accords st settings sources)
    (hmove : Moves settings limit pool pool') : pool'.Accords st settings sources := by
  cases hmove with
  | start hlimit => exact h.replace_uncounted rfl rfl ⟨rfl, rfl⟩ rfl
  | @advance store st' before after source own s next event left hrun =>
    -- The scan is one event nearer to the answer that it had all along.
    obtain ⟨rfl, hanswer⟩ := h.fits ⟨source, .working own s (event :: left)⟩ (by simp)
    obtain ⟨hmeet, rfl⟩ := InPlace.meet_of_run_take_ok rfl hrun
    rw [Scan.result?_runFrom_cons, hmeet] at hanswer
    exact h.replace_uncounted rfl rfl ⟨rfl, hanswer⟩ rfl
  -- The same for an event that stops the scan: the fault is its answer.
  | @stop store st' before after source own s event left fault hrun =>
    obtain ⟨rfl, hanswer⟩ := h.fits ⟨source, .working own s (event :: left)⟩ (by simp)
    obtain ⟨hmeet, rfl⟩ := InPlace.meet_of_run_take_error rfl hrun
    rw [Scan.result?_runFrom_cons, hmeet] at hanswer
    exact h.replace_uncounted rfl rfl hanswer rfl
  | @finish store st' before after source own s hrun =>
    obtain ⟨-, hanswer⟩ := h.fits ⟨source, .working own s []⟩ (by simp)
    have hnew := h.replace ⟨source, .finished (.ok (s.result { settings }))⟩ rfl rfl hanswer
    -- The worker's own settings play no part in what it adds to the tallies.
    have hstore : { store with tallies := st'.tallies } =
        store.count [(s.result { settings }).entry] := by
      rw [InPlace.run_record] at hrun
      cases hrun
      rw [Store.count_withSettings]
      exact Store.count_tallies_eq store _
    rw [hstore]
    exact hnew

/-- Turns one after the other keep a pool in accord. -/
theorem Accords.reaches {pool pool' : Pool} (h : pool.Accords st settings sources)
    (hreach : Reaches settings limit pool pool') : pool'.Accords st settings sources := by
  induction hreach with
  | refl => exact h
  | tail _ hmove ih => exact ih.move hmove

/-- In the end, the answers are those of scans one by one. -/
private theorem Accords.answers_eq {pool : Pool} (h : pool.Accords st settings sources)
    (hdone : pool.IsDone) : pool.answers = sources.map (sourceAnswer settings) := by
  have hanswer : ∀ job ∈ pool.jobs, job.answer? = some (sourceAnswer settings job.source) := by
    intro job hjob
    have hfits := h.fits job hjob
    have hsome := hdone job hjob
    obtain ⟨source, progress⟩ := job
    cases progress with
    | waiting => cases hsome
    | working own s left => cases hsome
    | finished answer => exact congrArg some hfits
  rw [answers, List.filterMap_congr hanswer, ← h.sources_eq, List.map_map]
  exact congrFun List.filterMap_eq_map pool.jobs

/-! ## All scans get finished -/

/-- One scan is nearer to its end, and the others are where they were. -/
private theorem work_lt_of_job {store store' : Store} {before after : List Job} {job job' : Job}
    (h : job'.work < job.work) :
    work ⟨store', before ++ job' :: after⟩ < work ⟨store, before ++ job :: after⟩ := by
  induction before with
  | nil => exact Nat.add_lt_add_right h _
  | cons first before ih => exact Nat.add_lt_add_left ih _

/-- Every turn brings the end nearer. -/
private theorem Moves.work_lt {pool pool' : Pool} (hmove : Moves settings limit pool pool') :
    pool'.work < pool.work := by
  cases hmove <;> exact work_lt_of_job (by simp [Job.work])

/-- Until all scans are finished, some worker can take its turn. -/
theorem exists_move (settings : Settings) {pool : Pool} (hlimit : 0 < limit)
    (h : ¬pool.IsDone) : ∃ pool', Moves settings limit pool pool' := by
  obtain ⟨store, jobs⟩ := pool
  by_cases hworking : ∃ job ∈ jobs, job.isWorking
  · -- A worker that is busy needs nobody else to get on.
    obtain ⟨⟨source, progress⟩, hjob, hworking⟩ := hworking
    obtain ⟨before, after, rfl⟩ := List.append_of_mem hjob
    cases progress with
    | waiting => cases hworking
    | finished answer => cases hworking
    | working own s left =>
      cases left with
      | nil => exact ⟨_, .finish (InPlace.run_record _ _ _ _)⟩
      | cons event left =>
        cases hrun : (InPlace.take { settings } s event).run { store with settings := own } with
        | ok next st' => exact ⟨_, .advance hrun⟩
        | error fault st' => exact ⟨_, .stop hrun⟩
  · -- No worker is busy, so there is room for a scan that waits.
    simp only [IsDone, Classical.not_forall] at h
    obtain ⟨⟨source, progress⟩, hjob, hanswer⟩ := h
    have hnone : ∀ job ∈ jobs, ¬job.isWorking := fun job hjob hbusy => hworking ⟨job, hjob, hbusy⟩
    obtain ⟨before, after, rfl⟩ := List.append_of_mem hjob
    cases progress with
    | finished answer => exact absurd rfl hanswer
    | working own s left => exact absurd rfl (hnone _ hjob)
    | waiting =>
      have hidle : (before ++ after).countP Job.isWorking = 0 :=
        List.countP_eq_zero.mpr fun job hmem => hnone job (by
          rcases List.mem_append.mp hmem with hbefore | hafter
          · exact List.mem_append_left _ hbefore
          · exact List.mem_append_right _ (List.mem_cons_of_mem _ hafter))
      exact ⟨_, .start (hidle ▸ hlimit)⟩

/-- All scans can be finished. -/
private theorem exists_done (hlimit : 0 < limit) (pool : Pool) :
    ∃ final, Reaches settings limit pool final ∧ final.IsDone := by
  -- By induction on the number of turns that are left at most.
  induction hwork : pool.work using Nat.strongRecOn generalizing pool with
  | ind n ih =>
    by_cases hdone : pool.IsDone
    · exact ⟨pool, .refl, hdone⟩
    · obtain ⟨next, hmove⟩ := exists_move settings hlimit hdone
      obtain ⟨final, hreach, hfinal⟩ := ih next.work (hwork ▸ hmove.work_lt) next rfl
      exact ⟨final, .head hmove hreach, hfinal⟩

end Pool

/-- So many workers may be busy: as many as are asked for, or any number where none is. -/
def Admits (workers : Option Int) (limit : Nat) : Prop :=
  0 < limit ∧ ∀ n : Int, workers = some n → n = limit

/-- A number of workers that is admitted is one that the session takes. -/
theorem Admits.any_eq_false {workers : Option Int} {limit : Nat} (h : Admits workers limit) :
    workers.any (· ≤ 0) = false := by
  cases workers with
  | none => rfl
  | some n =>
    have hn : n = limit := h.2 n rfl
    have hpos : ¬n ≤ 0 := by
      have := h.1
      omega
    simpa using hpos

/-- Many sources that workers scan side by side are scanned as if each were scanned by itself, in
    whatever order the workers take their turns.  They can go on to the end, and must.  Then there
    is a result for each source, or else the fault of the first source that has one.  What came to
    its end is counted, and nothing else, also after that fault.  The settings stay.  So it is in a
    session, which scans one source after the other. -/
theorem scanMany_eq_scan_each (st : Store) (hst : st.Valid) (given : Overrides)
    (settings : Settings) (hgiven : st.settings.override given = .ok settings)
    (workers : Option Int) (limit : Nat) (hlimit : Admits workers limit) (sources : List String) :
    (∀ pool pool' : Pool, Pool.Moves settings limit pool pool' → pool'.work < pool.work) ∧
    (∀ pool : Pool, Pool.Reaches settings limit (.submit st sources) pool →
      ∃ final, Pool.Reaches settings limit pool final ∧ final.IsDone) ∧
    (∀ final : Pool, Pool.Reaches settings limit (.submit st sources) final → final.IsDone →
      final.answers.map some = (sources.map fun source =>
        (st.session.step (.scan given { input := .source source })).1.answer?) ∧
      ((∃ results : List Result,
          final.answers = results.map .ok ∧ final.outcome = .results results) ∨
        ∃ (before : List Result) (fault : Fault) (after : List (Except Fault Result)),
          final.answers = before.map .ok ++ .error fault :: after ∧
          final.outcome = .fault fault) ∧
      final.store = st.count (completed final.answers) ∧
      final.store.settings = st.settings ∧
      final.outcome = (st.session.step (.scanMany given workers sources)).1 ∧
      final.store.session = (st.session.step (.scanMany given workers sources)).2.1) := by
  refine ⟨fun _ _ hmove => hmove.work_lt, fun pool _ => Pool.exists_done hlimit.1 pool,
    fun final hreach hdone => ?_⟩
  -- What holds of the answers in the end does not depend on the way there.
  have hfinal := (Pool.accords_submit st settings sources).reaches hreach
  have hanswers := hfinal.answers_eq hdone
  have hstep : st.session.step (.scanMany given workers sources) =
      st.session.scanMany settings sources := by
    have hgiven' : st.session.settings.override given = .ok settings := hgiven
    rw [step, hgiven', hlimit.any_eq_false]
    rfl
  refine ⟨?_, Outcome.ofAnswers_cases final.answers, hfinal.store_eq, ?_, ?_, ?_⟩
  · rw [hanswers, List.map_map]
    refine List.map_congr_left fun source _ => ?_
    have hgiven' : st.session.settings.override given = .ok settings := hgiven
    rw [step, hgiven']
    rfl
  · rw [hfinal.store_eq, Store.settings_count]
  · rw [hstep, Pool.outcome, hanswers, scanMany]
    exact (gather_sources settings sources).symm
  · -- One by one or side by side, the same entries are counted.
    have hleads := Store.Leads.count st (completed (sources.map (sourceAnswer settings)))
    rw [hstep, hfinal.store_eq, hanswers, hleads.session_eq hst, scanMany]
    dsimp only
    rw [foldl_record _ { settings }, List.map_map]
    rfl

/-- Two workers and three sources, of which the second has an `end` too many.  The third is counted
    nevertheless. -/
theorem scanMany_eq_scan_each_three :
    let st : Store := { tallies := [{ tokens := 5, scopes := 2, scans := 1 }], active := some 0 }
    let sources : List String := ["", "end", "class A\nend\n"]
    st.Valid ∧ st.settings.override {} = .ok {} ∧ Admits (some 2) 2 ∧
    ∃ final : Pool, Pool.Reaches {} 2 (.submit st sources) final ∧ final.IsDone ∧
      final.outcome = .fault
        (.illegalTransition "close" (.text "pending") { line := some 1, column := some 1 }) ∧
      final.store.session =
        { settings := {}, tally := some { tokens := 8, scopes := 5, scans := 3 } } := by
  intro st sources
  have hst : st.Valid := by
    intro i hi
    cases hi
    decide
  have hlimit : Admits (some 2) 2 := ⟨by decide, fun n hn => (Option.some.inj hn).symm⟩
  obtain ⟨-, hend, hfinal⟩ := scanMany_eq_scan_each st hst {} {} rfl (some 2) 2 hlimit sources
  obtain ⟨final, hreach, hdone⟩ := hend _ .refl
  obtain ⟨-, -, -, -, houtcome, hsession⟩ := hfinal final hreach hdone
  obtain ⟨hfirst, hcounted⟩ : (sources.map (sourceAnswer {})).mapM id = .error
        (.illegalTransition "close" (.text "pending") { line := some 1, column := some 1 }) ∧
      (st.session.step (.scanMany {} (some 2) sources)).2.1 =
        { settings := {}, tally := some { tokens := 8, scopes := 5, scans := 3 } } := by
    decide +kernel
  have hgather : (st.session.step (.scanMany {} (some 2) sources)).1 =
      .ofAnswers (sources.map (sourceAnswer {})) := gather_sources {} sources
  rw [hgather, Outcome.ofAnswers, hfirst] at houtcome
  exact ⟨hst, rfl, hlimit, final, hreach, hdone, houtcome, hsession.trans hcounted⟩

end Session

end ScopeTags
