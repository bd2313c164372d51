/-!
# Declared state machines

A machine has states, the first of which is initial, and events.  An event has one or more rules,
each leading from a source state to a target state.  An event is permitted in every state that is a
source or a target of one of its rules: in a source it follows the first rule that starts there,
and in a state that is only a target it changes nothing.

States are told apart by `==` alone, which need not be identity: a flag and the number that it
stands for may be one state.

`Machine.ofStates` and `Machine.declare` check what they are given and say by a `Machine.Flaw` what
is wrong with it.  `Hosts` are the statuses of several hosts that follow one machine.
-/

namespace ScopeTags

/-- One way for an event to change the state. -/
structure Rule (σ : Type) where
  source : σ
  target : σ
deriving DecidableEq, Repr

/-- States, the first of them initial, and events with their rules in the order declared. -/
structure Machine (σ : Type) where
  initial : σ
  others : List σ := []
  events : List (String × List (Rule σ)) := []
deriving DecidableEq, Repr

namespace Machine

/-- What can be wrong with a declaration. -/
inductive Flaw (σ : Type) where
  | noStates
  | duplicateState
  | eventDeclared (event : String)
  | noRules (event : String)
  | undeclaredState (event : String) (state : σ)
  | ruleTooShort (states : Nat)
  | ruleTooLong
deriving DecidableEq, Repr

/-- The flaw with its state as `f` shows it. -/
def Flaw.map {σ τ : Type} (f : σ → τ) : Flaw σ → Flaw τ
  | noStates => .noStates
  | duplicateState => .duplicateState
  | eventDeclared event => .eventDeclared event
  | noRules event => .noRules event
  | undeclaredState event state => .undeclaredState event (f state)
  | ruleTooShort states => .ruleTooShort states
  | ruleTooLong => .ruleTooLong

variable {σ : Type} [BEq σ]

/-- No two of the states are equal. -/
def Distinct (states : List σ) : Prop := states.Pairwise fun a b => (a == b) = false

instance (states : List σ) : Decidable (Distinct states) :=
  inferInstanceAs (Decidable (states.Pairwise _))

/-- All states, in the order declared. -/
def states (m : Machine σ) : List σ := m.initial :: m.others

/-- The machine with the given states and no events. -/
def ofStates : List σ → Except (Flaw σ) (Machine σ)
  | [] => .error .noStates
  | initial :: others =>
    if Distinct (initial :: others) then .ok { initial, others } else .error .duplicateState

/-- The rules of an event: none if it was not declared. -/
def rules (m : Machine σ) (event : String) : List (Rule σ) :=
  (m.events.lookup event).getD []

/-- Read a rule of `event` from the states that stand for it: two declared ones. -/
def readRule (m : Machine σ) (event : String) : List σ → Except (Flaw σ) (Rule σ)
  | [source, target] =>
    if !m.states.contains source then .error (.undeclaredState event source)
    else if !m.states.contains target then .error (.undeclaredState event target)
    else .ok ⟨source, target⟩
  | _ :: _ :: _ :: _ => .error .ruleTooLong
  | short => .error (.ruleTooShort short.length)

/-- The machine with one more event.  The first thing that is wrong is the one reported. -/
def declare (m : Machine σ) (event : String) (rules : List (List σ)) :
    Except (Flaw σ) (Machine σ) :=
  if (m.events.lookup event).isSome then .error (.eventDeclared event)
  else if rules.isEmpty then .error (.noRules event)
  else do
    let rules ← rules.mapM (m.readRule event)
    return { m with events := m.events ++ [(event, rules)] }

/-- Whether `event` may be triggered in state `status`. -/
def permits (m : Machine σ) (event : String) (status : σ) : Bool :=
  (m.rules event).any fun rule => rule.source == status || rule.target == status

/-- The state that `event` leads to from `status`, if it is permitted there. -/
def next? (m : Machine σ) (event : String) (status : σ) : Option σ :=
  if m.permits event status then
    match (m.rules event).find? fun rule => rule.source == status with
    | some rule => some rule.target
    | none => some status
  else none

theorem next?_eq_none_iff {m : Machine σ} {event : String} {status : σ} :
    m.next? event status = none ↔ m.permits event status = false := by
  rw [next?]
  split
  · next h => split <;> simp [h]
  · next h => simpa using h

end Machine

/-- The statuses of the hosts that follow one machine, in the order they joined. -/
structure Hosts (σ : Type) where
  machine : Machine σ
  statuses : List σ
deriving DecidableEq, Repr

namespace Hosts

variable {σ : Type} [BEq σ]

/-- One host, in the initial state. -/
def ofMachine (m : Machine σ) : Hosts σ := ⟨m, [m.initial]⟩

/-- One more host, in the initial state. -/
def join (h : Hosts σ) : Hosts σ := { h with statuses := h.statuses ++ [h.machine.initial] }

/-- One more event for the machine of all hosts. -/
def declare (h : Hosts σ) (event : String) (rules : List (List σ)) :
    Except (Machine.Flaw σ) (Hosts σ) :=
  return { h with machine := ← h.machine.declare event rules }

end Hosts

end ScopeTags
