/-
A gate with those who use it: owners, known by the guard they hold, and waiters. A step may be
followed by a poll of every waiter, in the order in which they began to wait.
-/
import FizzService.Dict
import FizzService.Gate.Basic

namespace FizzService

structure GateSession (ι κ : Type) where
  gate : Gate κ
  /-- The key that each guard owns. -/
  guards : Dict ι κ
  waiters : List (ι × Waiter κ)
deriving DecidableEq, Repr

namespace GateSession

variable {ι κ : Type} [DecidableEq ι] [DecidableEq κ]

def empty : GateSession ι κ := ⟨.empty, ∅, []⟩

/-- Drops a guard, which releases its key. -/
def release (s : GateSession ι κ) (id : ι) : Bool × GateSession ι κ :=
  match s.guards.get? id with
  | some key => (true, { s with gate := s.gate.release key, guards := s.guards.erase id })
  | none => (false, s)

/-- Asks for a key. If nobody owns it, a guard is kept, in the place of one of the same name. -/
def acquire (s : GateSession ι κ) (id : ι) (key : κ) : Bool × GateSession ι κ :=
  match s.gate.acquire? key with
  | some gate =>
    let s := (release { s with gate := gate } id).2
    (true, { s with guards := s.guards.insert id key })
  | none => (false, s)

def wait (s : GateSession ι κ) (id : ι) (awaited : Awaited κ) : GateSession ι κ :=
  { s with waiters := s.waiters ++ [(id, .new awaited)] }

/-- Drops a waiter. -/
def cancel (s : GateSession ι κ) (id : ι) : GateSession ι κ :=
  { s with waiters := s.waiters.filter (·.1 ≠ id) }

/-- Polls every waiter; those that are done are named and forgotten. -/
def settle (s : GateSession ι κ) : List ι × GateSession ι κ :=
  ((s.waiters.filter fun w => (w.2.poll s.gate).isNone).map (·.1),
    { s with waiters := s.waiters.filterMap fun w => (w.2.poll s.gate).map fun p => (w.1, p) })

end GateSession

end FizzService
