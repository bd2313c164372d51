import Mathlib.Data.List.TakeWhile
import ScopeTags.Proofs.ReadingEffect
import ScopeTags.Source.Transcript

/-!
# Nesting of scopes

The keywords that open scopes and the ends that close them are brackets, and the innermost open
scope is closed first.  Modules, classes and methods with an `end` of their own are closed by an
`end` in the text, endless definitions by an implied one.  Since a reader keeps the two kinds on
separate stacks, nothing in it makes sure that an end closes a scope of its own kind.

`nests` says that each end does.  `Reader.closesAtHome` says when that is so, in terms of the reader
alone: an endless definition is at home where as many constructs are open as when it began, and has
to be closed there.

## Key results

- `Reader.nests_eq_closesAtHome`: the two agree from any state of the reader on.
- `nests_brackets_eq_closesAtHome`: the two agree for whole sources with which nothing is wrong.
- `nests_brackets_definition_in_body`: there are sources with which nothing is wrong and whose
  scopes do not nest.
-/

namespace ScopeTags.Source

/-- Whether the brackets close every scope that is opened, the innermost first, and each with an end
    of its own kind.  The stack says of each open scope whether it is an endless definition. -/
def nests : List Bool → List Bracket → Bool
  | stack, [] => stack.isEmpty
  | stack, .opens endless :: brackets => nests (endless :: stack) brackets
  | [], .closes _ :: _ => false
  | endless :: stack, .closes implied :: brackets => endless == implied && nests stack brackets

namespace Reader

/-- Everything that reading to the end of the text brings up, each event with whether an endless
    definition began in its step. -/
def marked (r : Reader) : List (Event × Bool) :=
  match _h : r.step? with
  | none => r.finish.map (·, false)
  | some (found, next) =>
    found.map (·, decide (r.endless.length < next.endless.length)) ++ next.marked
termination_by r.rest.length
decreasing_by exact step?_shorter _h

/-- The brackets among the events to come. -/
def brackets (r : Reader) : List Bracket :=
  r.marked.filterMap fun (event, endless) => event.bracket? endless

/-- Whether every endless definition is closed at home and until then no construct around it is.
    The homes of those that are open, the innermost first, are numbers of open constructs. -/
def closesAtHome (homes : List Nat) (r : Reader) : Bool :=
  match _h : r.step? with
  | none => true
  | some (_, next) =>
    if r.endless.length < next.endless.length then next.closesAtHome (r.constructs :: homes)
    else
      let closed := r.endless.length - next.endless.length
      (homes.take closed).all (· = next.constructs) &&
        (homes.drop closed).all (· ≤ next.constructs) && next.closesAtHome (homes.drop closed)
termination_by r.rest.length
decreasing_by all_goals exact step?_shorter _h

/-! ## One step -/

/-- The marked events are all events. -/
private theorem map_fst_marked (r : Reader) : r.marked.map Prod.fst = r.events := by
  fun_induction marked r with
  | case1 r h =>
    rw [events_of_none h, List.map_map]
    simp [Function.comp_def]
  | case2 r found next h ih =>
    rw [events_of_step? h, List.map_append, ih, List.map_map]
    simp [Function.comp_def]

/-- The brackets at the end of the text. -/
private theorem brackets_of_none {r : Reader} (h : r.step? = none) :
    r.brackets = bracketsOf false r.finish := by
  rw [brackets, marked]
  split
  · rw [List.filterMap_map]
    rfl
  · next h' => rw [h] at h'; cases h'

/-- The brackets to come are those of one step and those after it. -/
private theorem brackets_of_step? {r next : Reader} {found : List Event}
    (h : r.step? = some (found, next)) :
    r.brackets =
      bracketsOf (decide (r.endless.length < next.endless.length)) found ++ next.brackets := by
  rw [brackets, marked]
  split
  · next h' => rw [h] at h'; cases h'
  · next h' =>
    rw [h, Option.some.injEq, Prod.mk.injEq] at h'
    obtain ⟨rfl, rfl⟩ := h'
    rw [List.filterMap_append, List.filterMap_map]
    rfl

/-- At the end of the text nothing more is asked. -/
private theorem closesAtHome_of_none {r : Reader} (h : r.step? = none) (homes : List Nat) :
    r.closesAtHome homes = true := by
  rw [closesAtHome]
  split
  · rfl
  · next h' => rw [h] at h'; cases h'

/-- Where an endless definition begins, its home is the number of constructs open there. -/
private theorem closesAtHome_of_lt {r next : Reader} {found : List Event}
    (h : r.step? = some (found, next)) (hlt : r.endless.length < next.endless.length)
    (homes : List Nat) :
    r.closesAtHome homes = next.closesAtHome (r.constructs :: homes) := by
  rw [closesAtHome]
  split
  · next h' => rw [h] at h'; cases h'
  · next h' =>
    rw [h, Option.some.injEq, Prod.mk.injEq] at h'
    obtain ⟨-, rfl⟩ := h'
    rw [if_pos hlt]

/-- Where `closed` endless definitions end, they have to be at home, and the others stay inside of
    the constructs around them. -/
private theorem closesAtHome_of_closed {r next : Reader} {found : List Event} {closed : List Nat}
    (h : r.step? = some (found, next)) (hclosed : r.endless = closed ++ next.endless)
    (homes : List Nat) :
    r.closesAtHome homes = ((homes.take closed.length).all (· = next.constructs) &&
      (homes.drop closed.length).all (· ≤ next.constructs) &&
      next.closesAtHome (homes.drop closed.length)) := by
  have hlength : r.endless.length = closed.length + next.endless.length := by
    rw [hclosed, List.length_append]
  have hcount : r.endless.length - next.endless.length = closed.length := by omega
  rw [closesAtHome]
  split
  · next h' => rw [h] at h'; cases h'
  · next h' =>
    rw [h, Option.some.injEq, Prod.mk.injEq] at h'
    obtain ⟨-, rfl⟩ := h'
    rw [if_neg (by omega), hcount]

/-- Where none begins or ends, all stay inside of the constructs around them. -/
private theorem closesAtHome_of_kept {r next : Reader} {found : List Event}
    (h : r.step? = some (found, next)) (hendless : next.endless = r.endless) (homes : List Nat) :
    r.closesAtHome homes =
      (homes.all (· ≤ next.constructs) && next.closesAtHome homes) := by
  rw [closesAtHome_of_closed h (show r.endless = [] ++ next.endless from hendless.symm)]
  rfl

end Reader

/-! ## The stack of open scopes -/

/-- Whether the homes grow from the outside in, up to the number of open constructs. -/
def Descends : Nat → List Nat → Prop
  | _, [] => True
  | n, home :: homes => home ≤ n ∧ Descends home homes

/-- The open scopes, the innermost first, where `n` constructs are open and endless definitions with
    the given homes: between two homes stand the constructs opened from one to the other. -/
def scopeStack : Nat → List Nat → List Bool
  | n, [] => List.replicate n false
  | n, home :: homes => List.replicate (n - home) false ++ true :: scopeStack home homes

/-- Homes that grow up to a number of open constructs grow up to a greater one. -/
theorem Descends.mono {n n' : Nat} {homes : List Nat} (h : Descends n homes) (hn : n ≤ n') :
    Descends n' homes := by
  cases homes with
  | nil => trivial
  | cons home homes => exact ⟨Nat.le_trans h.1 hn, h.2⟩

/-- No home is above the number of open constructs. -/
theorem Descends.le {n : Nat} {homes : List Nat} (h : Descends n homes) :
    ∀ home ∈ homes, home ≤ n := by
  induction homes generalizing n with
  | nil => simp
  | cons home homes ih =>
    intro other hother
    rcases List.mem_cons.mp hother with rfl | hother
    · exact h.1
    · exact Nat.le_trans (ih h.2 other hother) h.1

/-- Fewer constructs may be open, as long as no home is above their number. -/
theorem Descends.of_le {n n' : Nat} {homes : List Nat} (h : Descends n' homes)
    (hle : ∀ home ∈ homes, home ≤ n) : Descends n homes := by
  cases homes with
  | nil => trivial
  | cons home homes => exact ⟨hle home List.mem_cons_self, h.2⟩

/-- No home is above the number of open constructs, as a test. -/
private theorem Descends.all_le {n : Nat} {homes : List Nat} (h : Descends n homes) :
    homes.all (· ≤ n) = true := by
  simpa using h.le

/-- Homes may be left from the inside. -/
theorem Descends.drop {n : Nat} {homes : List Nat} (h : Descends n homes) (k : Nat) :
    Descends n (homes.drop k) := by
  induction k generalizing n homes with
  | zero => exact h
  | succ k ih =>
    cases homes with
    | nil => trivial
    | cons home homes => exact (ih h.2).mono h.1

/-- A construct is opened. -/
private theorem scopeStack_succ {n : Nat} {homes : List Nat} (h : Descends n homes) :
    scopeStack (n + 1) homes = false :: scopeStack n homes := by
  cases homes with
  | nil => rfl
  | cons home homes =>
    rw [scopeStack, Nat.succ_sub h.1, List.replicate_succ, List.cons_append]
    rfl

/-- An endless definition is opened. -/
private theorem scopeStack_self (n : Nat) (homes : List Nat) :
    scopeStack n (n :: homes) = true :: scopeStack n homes := by
  rw [scopeStack, Nat.sub_self]
  rfl

/-- An `end` closes a construct unless an endless definition began in it that is still open. -/
private theorem nests_closes_construct {n : Nat} {homes : List Nat} (h : Descends (n + 1) homes)
    (brackets : List Bracket) :
    nests (scopeStack (n + 1) homes) (.closes false :: brackets) =
      (homes.all (· ≤ n) && nests (scopeStack n homes) brackets) := by
  cases homes with
  | nil => rfl
  | cons home homes =>
    -- The innermost endless definition lies around the construct, or inside of it.
    by_cases hhome : home ≤ n
    · have hdescends : Descends n (home :: homes) := ⟨hhome, h.2⟩
      rw [scopeStack_succ hdescends, hdescends.all_le]
      rfl
    · obtain rfl : home = n + 1 := Nat.le_antisymm h.1 (Nat.lt_of_not_le hhome)
      rw [scopeStack_self, List.all_cons, decide_eq_false hhome, Bool.false_and, Bool.false_and]
      rfl

/-- Implied ends close endless definitions that are at home. -/
private theorem nests_closes_endless {n : Nat} {homes : List Nat} (h : Descends n homes)
    {closed : List Nat} (hclosed : closed.length ≤ homes.length) (brackets : List Bracket) :
    nests (scopeStack n homes) ((closed.map fun _ => .closes true) ++ brackets) =
      ((homes.take closed.length).all (· = n) &&
        nests (scopeStack n (homes.drop closed.length)) brackets) := by
  -- By induction on the definitions that are closed, the innermost first.
  induction closed generalizing homes with
  | nil => rfl
  | cons depth closed ih =>
    cases homes with
    | nil => simp at hclosed
    | cons home homes =>
      by_cases hhome : home = n
      · subst hhome
        have ih := ih h.2 (Nat.le_of_succ_le_succ hclosed)
        rw [scopeStack_self]
        simp only [List.map_cons, List.cons_append, nests, beq_self_eq_true, Bool.true_and, ih,
          List.length_cons, List.take_succ_cons, List.drop_succ_cons, List.all_cons, decide_true]
      · -- A construct was opened since, and would be closed in its place.
        obtain ⟨k, hk⟩ : ∃ k, n - home = k + 1 := ⟨n - home - 1, by have := h.1; omega⟩
        simp [scopeStack, hk, List.replicate_succ, nests, hhome]

/-! ## Whole readings -/

namespace Reader

/-- Where no block is open at the end of the text, the endless definitions left are at home. -/
private theorem nests_finish {r : Reader} {homes : List Nat}
    (hlength : homes.length = r.endless.length) (hdescends : Descends r.constructs homes)
    (hopen : ∀ n, .unclosedBlocks n ∉ r.finish) :
    nests (scopeStack r.constructs homes) (bracketsOf false r.finish) = true := by
  have hblocks : r.blocks = [] := by
    cases hb : r.blocks with
    | nil => rfl
    | cons b blocks =>
      refine absurd ?_ (hopen r.blocks.length)
      simp [finish, hb]
  have hconstructs : r.constructs = 0 := by rw [constructs, hblocks]; rfl
  have hbrackets : bracketsOf false r.finish = (r.endless.map fun _ => .closes true) ++ [] := by
    have hends : bracketsOf false (r.endless.map fun _ => impliedEnd) =
        r.endless.map fun _ => .closes true := by
      rw [bracketsOf, List.filterMap_map]
      exact congrFun List.filterMap_eq_map _
    -- A heredoc that never came leaves a remark before the ends.
    rw [finish, hblocks, bracketsOf_append, bracketsOf_append, hends]
    cases r.heredocs <;> rfl
  rw [hbrackets, nests_closes_endless hdescends (Nat.le_of_eq hlength.symm), ← hlength,
    List.drop_length, List.take_length, hconstructs]
  rw [hconstructs] at hdescends
  simpa [scopeStack, nests] using hdescends.le

/-- From any state on, the scopes nest just when every endless definition is closed at home. -/
theorem nests_eq_closesAtHome {r : Reader} {homes : List Nat} (hline : 0 < r.line)
    (hlength : homes.length = r.endless.length) (hdescends : Descends r.constructs homes)
    (hstray : ∀ line, .strayEnd line ∉ r.events) (hopen : ∀ n, .unclosedBlocks n ∉ r.events) :
    nests (scopeStack r.constructs homes) r.brackets = r.closesAtHome homes := by
  -- By the steps of the reading.  What carries it is that the stack of open scopes is determined by
  -- the number of constructs and the homes, as long as no end was misplaced.
  induction r using marked.induct generalizing homes with
  | case1 r h =>
    rw [events_of_none h] at hopen
    rw [brackets_of_none h, closesAtHome_of_none h]
    exact nests_finish hlength hdescends hopen
  | case2 r found next h ih =>
    obtain ⟨hline_le, heffect⟩ := step?_moves hline h
    have hline' : 0 < next.line := Nat.lt_of_lt_of_le hline hline_le
    rw [events_of_step? h] at hstray hopen
    have hstray' : ∀ line, .strayEnd line ∉ next.events := fun line hmem =>
      hstray line (List.mem_append_right found hmem)
    have hopen' : ∀ n, .unclosedBlocks n ∉ next.events := fun n hmem =>
      hopen n (List.mem_append_right found hmem)
    rw [brackets_of_step? h]
    cases heffect with
    -- Whatever opens goes on top of the stack.
    | opensConstruct hconstructs hendless hbrackets =>
      have hlength' : homes.length = next.endless.length := by rw [hlength, hendless]
      have hdescends' : Descends next.constructs homes := hdescends.mono (by omega)
      rw [hbrackets, hendless, decide_eq_false (Nat.lt_irrefl _), closesAtHome_of_kept h hendless,
        hdescends'.all_le, Bool.true_and, ← ih hline' hlength' hdescends' hstray' hopen',
        hconstructs, scopeStack_succ hdescends]
      rfl
    | opensEndless depth hconstructs hendless hbrackets =>
      have hlt : r.endless.length < next.endless.length := by
        rw [hendless]
        exact Nat.lt_succ_self _
      have hlength' : (r.constructs :: homes).length = next.endless.length := by
        rw [hendless, List.length_cons, List.length_cons, hlength]
      have hdescends' : Descends next.constructs (r.constructs :: homes) :=
        ⟨Nat.le_of_eq hconstructs.symm, hdescends⟩
      rw [hbrackets, decide_eq_true hlt, closesAtHome_of_lt h hlt,
        ← ih hline' hlength' hdescends' hstray' hopen', hconstructs, scopeStack_self]
      rfl
    | closesConstruct hconstructs hendless hbrackets =>
      have hlength' : homes.length = next.endless.length := by rw [hlength, hendless]
      rw [hconstructs] at hdescends
      rw [hbrackets, hconstructs, List.singleton_append, nests_closes_construct hdescends,
        closesAtHome_of_kept h hendless]
      -- Where an endless definition has its home in the construct that ends, both sides fail.
      cases hall : homes.all (· ≤ next.constructs) with
      | false => rfl
      | true =>
        have hdescends' : Descends next.constructs homes := hdescends.of_le (by simpa using hall)
        rw [ih hline' hlength' hdescends' hstray' hopen']
    | strays line hmem => exact absurd (List.mem_append_left _ hmem) (hstray line)
    | settles closed hconstructs hendless hbrackets =>
      have hsplit : homes.length = closed.length + next.endless.length := by
        rw [hlength, hendless, List.length_append]
      have hlength' : (homes.drop closed.length).length = next.endless.length := by
        rw [List.length_drop]
        omega
      have hdescends' : Descends next.constructs (homes.drop closed.length) := by
        rw [hconstructs]
        exact hdescends.drop closed.length
      rw [hbrackets, nests_closes_endless hdescends (by omega), closesAtHome_of_closed h hendless,
        hdescends'.all_le, Bool.and_true, ← ih hline' hlength' hdescends' hstray' hopen',
        hconstructs]

end Reader

/-- A lenient reading that leaves no notice brings up tokens only. -/
private theorem notice?_of_notices_eq_nil {source : String} {file : Option String}
    (h : (transcribe false file source).notices = []) {event : Event}
    (hmem : event ∈ events source) : (event.inFile file).notice? file = none := by
  have hheeded : (eventsIn file source).takeWhile (fun e => (e.fault? false file).isNone) =
      eventsIn file source := by
    -- No event stops a lenient reading.
    rw [List.takeWhile_eq_self_iff]
    intro e _
    cases e <;> rfl
  rw [transcribe] at h
  simp only [hheeded, List.filterMap_eq_nil_iff] at h
  exact h _ (List.mem_map_of_mem hmem)

/-- Where nothing is wrong with a source, its scopes nest just when every endless definition is
    closed at home.  The brackets are read off the events of the source itself. -/
theorem nests_brackets_eq_closesAtHome (source : String) (file : Option String)
    (h : (transcribe false file source).notices = []) :
    (Reader.start source.toList).marked.map Prod.fst = events source ∧
      nests [] (Reader.start source.toList).brackets =
        (Reader.start source.toList).closesAtHome [] := by
  refine ⟨Reader.map_fst_marked _, ?_⟩
  have hstray : ∀ line, .strayEnd line ∉ events source := fun line hmem => by
    have hnone := notice?_of_notices_eq_nil h hmem
    cases hnone
  have hopen : ∀ n, .unclosedBlocks n ∉ events source := fun n hmem => by
    have hnone := notice?_of_notices_eq_nil h hmem
    cases hnone
  have hempty : Descends (Reader.start source.toList).constructs [] := trivial
  exact Reader.nests_eq_closesAtHome Nat.one_pos rfl hempty hstray hopen

/-- A module with an endless definition over two lines and a method after it. -/
theorem nests_brackets_eq_closesAtHome_in_module :
    let source := "module M\n  def f = g(1,\n    2)\n  def h\n  end\nend\n"
    (transcribe false none source).notices = [] ∧
      nests [] (Reader.start source.toList).brackets = true :=
  have h : (transcribe false none
      "module M\n  def f = g(1,\n    2)\n  def h\n  end\nend\n").notices = [] := by
    decide +kernel
  ⟨h, (nests_brackets_eq_closesAtHome _ none h).2.trans (by decide +kernel)⟩

/-- The body of an endless definition may go over several lines without a bracket.  At the first of
    them that completes an operand the definition is closed, and if a method was opened on that
    line, the implied end closes the method in its place. -/
theorem nests_brackets_definition_in_body :
    let source := "def f = begin\n  def g\n  end\nend\n"
    (transcribe false none source).notices = [] ∧
      (Reader.start source.toList).brackets =
        [.opens true, .opens false, .closes true, .closes false] ∧
      nests [] (Reader.start source.toList).brackets = false := by
  decide +kernel

end ScopeTags.Source
