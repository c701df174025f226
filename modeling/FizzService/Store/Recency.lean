/-
Which keys were used least recently. Every use stamps its key with the next tick of a clock; one
map leads from ticks to keys, the other from keys to their latest tick. Ticks only grow, so the
first map stays in the order of last use.
-/
import FizzService.Dict

namespace FizzService

structure Recency (κ : Type) where
  order : Dict Nat κ
  ticks : Dict κ Nat
  clock : Nat
deriving DecidableEq, Repr

namespace Recency

variable {κ : Type}

def empty : Recency κ := ⟨∅, ∅, 0⟩

/-- The tracked keys, least recently used first. -/
def keys (r : Recency κ) : List κ := r.order.entries.map (·.2)

/-- The key that was used least recently. -/
def oldest? (r : Recency κ) : Option κ := r.order.entries.head?.map (·.2)

def size (r : Recency κ) : Nat := r.ticks.size

def isEmpty (r : Recency κ) : Bool := r.ticks.entries.isEmpty

variable [DecidableEq κ]

def contains (r : Recency κ) (k : κ) : Bool := r.ticks.contains k

/-- Makes `k` the key used most recently. -/
def touch (r : Recency κ) (k : κ) : Recency κ :=
  let tick := r.clock + 1
  let order :=
    match r.ticks.get? k with
    | some former => r.order.erase former
    | none => r.order
  { order := order.insert tick k, ticks := r.ticks.insert k tick, clock := tick }

def remove (r : Recency κ) (k : κ) : Recency κ :=
  match r.ticks.get? k with
  | some tick => { r with order := r.order.erase tick, ticks := r.ticks.erase k }
  | none => r

/-- Takes out the `count` keys used least recently, oldest first, or all if there are fewer. -/
def evictOldest (r : Recency κ) (count : Nat) : List κ × Recency κ :=
  let gone := (r.order.entries.take count).map (·.2)
  (gone, { r with order := ⟨r.order.entries.drop count⟩, ticks := r.ticks.eraseAll gone })

end Recency

end FizzService
