import ScopeTags.Notice
import ScopeTags.SortedSet

/-!
# Machines at work

A machine is followed by hosts, which are told apart by number.  What is not permitted is a fault,
and every change of status leaves a notice.
-/

namespace ScopeTags

namespace Machine

variable {σ : Type} [BEq σ]

/-- The state that `event` leads to from `status`. -/
def next [Shown σ] (m : Machine σ) (event : String) (status : σ) : Except Fault σ :=
  match m.next? event status with
  | some target => .ok target
  | none => .error (.illegalTransition event (Shown.scalar status) {})

/-- The machine in one line: how many states it has, and its events in increasing order. -/
def render (m : Machine σ) : String :=
  let names := (SortedSet.ofList (m.events.map (·.1))).toList.map Text.quoted
  let count := m.states.length
  s!"StateMachine(states={count}, events=[" ++ String.intercalate ", " names ++ "])"

end Machine

namespace Hosts

variable {σ : Type} [BEq σ]

/-- Host `i`, whose status is `former`, with the status `target`.  Where the two are equal it keeps
    the one that it has. -/
def move (h : Hosts σ) (i : Nat) (former target : σ) : Hosts σ :=
  if target == former then h else { h with statuses := h.statuses.set i target }

/-- Trigger `event` on host `i`: its status after that, all hosts after it, and the notice of the
    change if there is one. -/
def trigger [Shown σ] (h : Hosts σ) (i : Nat) (event : String) :
    Except Fault (σ × Hosts σ × List Notice) :=
  match h.statuses[i]? with
  | none => .error .outOfRange
  | some former =>
    match h.machine.next event former with
    | .error fault => .error fault
    | .ok target =>
      .ok (if target == former then former else target, h.move i former target,
        Notice.ofChange "Host" event former target)

end Hosts

end ScopeTags
