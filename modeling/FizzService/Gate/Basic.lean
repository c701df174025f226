/-
The gate in front of the computations: a registry of the keys in flight, which lets one
computation per key pass, and a broadcast at every release, which tells those who wait to look
again. A waiter that has heard no broadcast since it last looked need not look: keys leave the
registry in no other way.
-/
namespace FizzService

structure Gate (κ : Type) where
  /-- The keys that are being computed. -/
  inFlight : List κ
  /-- The number of releases so far. -/
  broadcasts : Nat
deriving DecidableEq, Repr

/-- What a waiter waits for: the release of one key, or of all. -/
inductive Awaited (κ : Type) where
  | released (key : κ)
  | idle
deriving DecidableEq, Repr

structure Waiter (κ : Type) where
  awaited : Awaited κ
  /-- The broadcasts there had been when it last looked; none if it has not looked yet. -/
  heard : Option Nat
deriving DecidableEq, Repr

namespace Gate

variable {κ : Type}

def empty : Gate κ := ⟨[], 0⟩

/-- The number of keys in flight. -/
def count (g : Gate κ) : Nat := g.inFlight.length

def isIdle (g : Gate κ) : Bool := g.inFlight.isEmpty

variable [DecidableEq κ]

def isInFlight (g : Gate κ) (k : κ) : Bool := k ∈ g.inFlight

/-- Takes the ownership of a key; none if it is owned already. -/
def acquire? (g : Gate κ) (k : κ) : Option (Gate κ) :=
  if g.isInFlight k then none else some { g with inFlight := g.inFlight ++ [k] }

/-- Gives the ownership of a key back and tells every waiter. -/
def release (g : Gate κ) (k : κ) : Gate κ :=
  ⟨g.inFlight.filter (· ≠ k), g.broadcasts + 1⟩

end Gate

variable {κ : Type} [DecidableEq κ]

/-- Whether what is waited for has come. -/
def Awaited.holds (a : Awaited κ) (g : Gate κ) : Bool :=
  match a with
  | released k => !g.isInFlight k
  | idle => g.isIdle

namespace Waiter

/-- A waiter that has not looked yet. -/
def new (a : Awaited κ) : Waiter κ := ⟨a, none⟩

/-- Lets a waiter look, if a broadcast has been made since it last did. It is done if what it
waits for has come; otherwise it goes on waiting. -/
def poll (w : Waiter κ) (g : Gate κ) : Option (Waiter κ) :=
  if w.heard = some g.broadcasts then some w
  else if w.awaited.holds g then none
  else some { w with heard := some g.broadcasts }

end Waiter

end FizzService
