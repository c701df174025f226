/-
A store of bounded size: items with an expiry, of which a batch of the least recently used ones
makes room when a new key comes to a full store. Expired items stay readable until they are
purged, so that they can still be served while a fresh value is computed.
-/
import FizzService.Store.Item
import FizzService.Store.Recency

namespace FizzService

/-- What a store answers for a key it holds. -/
structure Reading (ν : Type) where
  value : ν
  expired : Bool
deriving DecidableEq, Repr

structure Store (κ ν : Type) where
  items : Dict κ (Item ν)
  recency : Recency κ
  /-- The number of items that are kept at most. -/
  capacity : Nat
  /-- The number of items that make room for a new one. -/
  batch : Nat
  /-- The lifetime of items that are written without one of their own. -/
  lifetime : Duration
  /-- The number of items that had to make room so far. -/
  evictions : Nat
deriving DecidableEq, Repr

namespace Store

variable {κ ν : Type}

/-- An empty store. It keeps at least one item, and a batch is at least one and at most all. -/
def new (capacity batch : Nat) (lifetime : Duration) : Store κ ν where
  items := ∅
  recency := .empty
  capacity := max capacity 1
  batch := max 1 (min batch (max capacity 1))
  lifetime := lifetime
  evictions := 0

def size (s : Store κ ν) : Nat := s.items.size

variable [DecidableEq κ]

def contains (s : Store κ ν) (k : κ) : Bool := s.items.contains k

/-- Removes one batch of the least recently used items. -/
def prune (s : Store κ ν) : Store κ ν :=
  let (gone, recency) := s.recency.evictOldest s.batch
  { s with
    items := s.items.eraseAll gone
    recency := recency
    evictions := s.evictions + (gone.filter s.items.contains).length }

/-- Writes a value under a key. Only a new key in a full store makes others leave. -/
def set (s : Store κ ν) (now : Instant) (k : κ) (v : ν) (lifetime : Option Duration) : Store κ ν :=
  let s := if !s.items.contains k && s.capacity ≤ s.items.size then s.prune else s
  { s with
    items := s.items.insert k (.write now (lifetime.getD s.lifetime) v)
    recency := s.recency.touch k }

/-- Reads the item of a key, which counts as a use of it. -/
def get (s : Store κ ν) (now : Instant) (k : κ) : Option (Reading ν) × Store κ ν :=
  match s.items.get? k with
  | some item => (some ⟨item.value, item.isExpired now⟩, { s with recency := s.recency.touch k })
  | none => (none, s)

/-- Removes a key, and tells whether it was there. -/
def delete (s : Store κ ν) (k : κ) : Bool × Store κ ν :=
  if s.items.contains k then
    (true, { s with items := s.items.erase k, recency := s.recency.remove k })
  else (false, s)

/-- Removes every item that has been expired for `grace` or longer, and counts them. -/
def purge (s : Store κ ν) (now : Instant) (grace : Duration) : Nat × Store κ ν :=
  let gone := (s.items.entries.filter fun e =>
    e.2.isExpired now && grace ≤ e.2.staleFor now).map (·.1)
  (gone.length,
    { s with items := s.items.eraseAll gone, recency := gone.foldl Recency.remove s.recency })

end Store

end FizzService
