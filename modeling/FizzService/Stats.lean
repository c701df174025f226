/-
How fetches were served: counters of what happened, and the picture of the cache that is reported.
-/
import FizzService.Json

namespace FizzService

/-- What is counted. -/
inductive CacheEvent where
  /-- A fresh entry was served. -/
  | hit
  /-- An expired entry was served. -/
  | staleHit
  /-- An empty result on record was served. -/
  | negativeHit
  /-- An oversized result was on record, and the body was computed anew. -/
  | bypass
  /-- Nothing was on record. -/
  | miss
  /-- A fetch waited for the computation of another. -/
  | coalescedWait
  /-- The compute function was called. -/
  | computation
  /-- The compute function reported a failure. -/
  | computeFailure
  /-- A refresh was queued. -/
  | refreshEnqueued
  /-- A refresh was wanted and could not be queued. -/
  | refreshDropped
deriving DecidableEq, Repr

structure Counters where
  hits : Nat := 0
  staleHits : Nat := 0
  negativeHits : Nat := 0
  bypasses : Nat := 0
  misses : Nat := 0
  coalescedWaits : Nat := 0
  computations : Nat := 0
  computeFailures : Nat := 0
  refreshEnqueued : Nat := 0
  refreshDropped : Nat := 0
deriving DecidableEq, Repr

namespace Counters

def record (c : Counters) : CacheEvent → Counters
  | .hit => { c with hits := c.hits + 1 }
  | .staleHit => { c with staleHits := c.staleHits + 1 }
  | .negativeHit => { c with negativeHits := c.negativeHits + 1 }
  | .bypass => { c with bypasses := c.bypasses + 1 }
  | .miss => { c with misses := c.misses + 1 }
  | .coalescedWait => { c with coalescedWaits := c.coalescedWaits + 1 }
  | .computation => { c with computations := c.computations + 1 }
  | .computeFailure => { c with computeFailures := c.computeFailures + 1 }
  | .refreshEnqueued => { c with refreshEnqueued := c.refreshEnqueued + 1 }
  | .refreshDropped => { c with refreshDropped := c.refreshDropped + 1 }

end Counters

/-- The cache at one moment. -/
structure Snapshot extends Counters where
  /-- The items of both stores that had to make room. -/
  evictions : Nat := 0
  entries : Nat := 0
  negativeEntries : Nat := 0
  inFlight : Nat := 0
  pendingRefreshes : Nat := 0
deriving DecidableEq, Repr

namespace Snapshot

/-- The share of look-ups that were answered from the cache; zero if there were none. Counters are
words of 64 bits, and so are their sums. -/
def hitRate (s : Snapshot) : Decimal :=
  let served := (s.hits + s.staleHits + s.negativeHits) % UInt64.size
  let total := (served + s.bypasses + s.misses) % UInt64.size
  if total = 0 then ⟨0, 0⟩ else .ofCounts served total

/-- Every figure in the order in which they are reported. -/
def figures (s : Snapshot) : List (String × Nat) :=
  [("hits", s.hits), ("stale_hits", s.staleHits), ("negative_hits", s.negativeHits),
    ("bypasses", s.bypasses), ("misses", s.misses), ("coalesced_waits", s.coalescedWaits),
    ("computations", s.computations), ("compute_failures", s.computeFailures),
    ("refresh_enqueued", s.refreshEnqueued), ("refresh_dropped", s.refreshDropped),
    ("evictions", s.evictions), ("entries", s.entries), ("negative_entries", s.negativeEntries),
    ("in_flight", s.inFlight), ("pending_refreshes", s.pendingRefreshes)]

/-- The report on a cache, or on a service that runs without one. -/
def report (snapshot : Option Snapshot) : Json :=
  let s := snapshot.getD {}
  .object (("cache_enabled", .flag snapshot.isSome) :: ("hit_rate", .decimal s.hitRate) ::
    s.figures.map fun f => (f.1, .whole f.2))

end Snapshot

end FizzService
