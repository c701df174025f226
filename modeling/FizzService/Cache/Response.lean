/-
The response cache: bodies on record, the gate that lets one computation per key run, and the
queue of stale keys. Here are the atomic steps of which calls are made; none of them waits.
-/
import FizzService.Cache.Stores
import FizzService.Computation
import FizzService.Config.Cache
import FizzService.Gate.Basic
import FizzService.RefreshQueue
import FizzService.Stats

namespace FizzService

structure ResponseCache where
  config : CacheConfig
  stores : Stores
  gate : Gate String
  queue : RefreshQueue
  counters : Counters

/-- Why a cache cannot be built: its configuration is refused, or its refresh queue would be
longer than a queue can be. -/
inductive BuildError where
  | refused (error : ConfigError)
  | queueTooLong (capacity : UInt64)
deriving DecidableEq, Repr

/-- The outcome of a look-up on the way of a fetch. -/
inductive Lookup where
  | served (body : ByteArray)
  /-- An oversized result is on record. -/
  | bypass
  | missing

/-- How a fetch begins. -/
inductive Admission where
  | served (body : ByteArray)
  /-- It computes on its own. -/
  | alone
  /-- It computes for all who want the key. -/
  | owner
  /-- Another owns the key. -/
  | waits

/-- For whom a computation runs. -/
inductive Role where
  /-- It owns its key, and its result is filed. -/
  | owner
  /-- It leaves the stores and the gate alone. -/
  | alone
deriving DecidableEq, Repr

namespace ResponseCache

/-- An empty store with the capacity and lifetime that a configuration gives it. -/
def emptyStore {ν : Type} (config : CacheConfig) (capacity : UInt64) (lifetime : Duration) :
    Store String ν :=
  .new capacity.toNat (config.pruneBatchFor capacity).toNat lifetime

def new (config : CacheConfig) : Except BuildError ResponseCache :=
  match config.validated with
  | .error e => .error (.refused e)
  | .ok config =>
    match RefreshQueue.new? config.refreshQueueCapacity.toNat with
    | none => .error (.queueTooLong config.refreshQueueCapacity)
    | some queue =>
      .ok
        { config := config
          stores :=
            { entries := emptyStore config config.entryMaxSize config.entryTtl
              negatives := emptyStore config config.negativeMaxSize config.negativeTtl }
          gate := .empty
          queue := queue
          counters := {} }

def count (c : ResponseCache) (e : CacheEvent) : ResponseCache :=
  { c with counters := c.counters.record e }

/-- Queues a stale key, unless it is being computed already. -/
def requestRefresh (c : ResponseCache) (key : CacheKey) : ResponseCache :=
  if c.gate.isInFlight key.text then c
  else
    let (queued, queue) := c.queue.enqueue key
    { c with queue := queue }.count (if queued then .refreshEnqueued else .refreshDropped)

/-- Looks a key up for a fetch, counts what it finds and asks for the refresh of a stale entry. -/
def lookup (c : ResponseCache) (now : Instant) (key : CacheKey) : Lookup × ResponseCache :=
  let (finding, stores) := c.stores.find now key.text
  let c := { c with stores := stores }
  match finding with
  | .entry body false => (.served body, c.count .hit)
  | .entry body true => (.served body, (c.count .staleHit).requestRefresh key)
  | .negative .empty => (.served Negative.empty.payload, c.count .negativeHit)
  | .negative (.oversized _) => (.bypass, c.count .bypass)
  | .nothing => (.missing, c)

/-- Gives a key back. -/
def release (c : ResponseCache) (key : CacheKey) : ResponseCache :=
  { c with gate := c.gate.release key.text }

/-- A new owner looks its key up again, since a former one may have filed its result meanwhile. If
there is something on record after all, it gives the key back. -/
def lookAgain (c : ResponseCache) (now : Instant) (key : CacheKey) : Admission × ResponseCache :=
  let (found, c) := c.lookup now key
  match found with
  | .served body => (.served body, c.release key)
  | .bypass => (.alone, c.release key)
  | .missing => (.owner, c)

/-- The beginning of a fetch. -/
def enter (c : ResponseCache) (now : Instant) (key : CacheKey) : Admission × ResponseCache :=
  let (found, c) := c.lookup now key
  match found with
  | .served body => (.served body, c)
  | .bypass => (.alone, c)
  | .missing =>
    let c := c.count .miss
    match c.gate.acquire? key.text with
    | some gate => { c with gate := gate }.lookAgain now key
    | none => (.waits, c.count .coalescedWait)

/-- The beginning of a refresh: none if the key is being computed already. -/
def claim? (c : ResponseCache) (key : CacheKey) : Option ResponseCache :=
  (c.gate.acquire? key.text).map fun gate => { c with gate := gate }

/-- The compute function is called. -/
def start (c : ResponseCache) : ResponseCache := c.count .computation

/-- Files a body under a key. -/
def set (c : ResponseCache) (now : Instant) (key : CacheKey) (body : ByteArray) : ResponseCache :=
  { c with stores := c.stores.put now c.config.maxAcceptedBytes.toNat key.text body }

/-- The compute function has ended. An error is counted, a crash is not. An owner files the body
it got, and gives its key back in any case. -/
def finish (c : ResponseCache) (now : Instant) (key : CacheKey) (role : Role)
    (outcome : Outcome) : ResponseCache :=
  let c := match outcome with
    | .failure _ => c.count .computeFailure
    | _ => c
  match role with
  | .alone => c
  | .owner =>
    let c := match outcome with
      | .body body => c.set now key body
      | _ => c
    c.release key

/-- A computation that runs to its end at once. -/
def run (c : ResponseCache) (now : Instant) (key : CacheKey) (role : Role) (compute : Compute) :
    Except ComputeError ByteArray × ResponseCache :=
  let outcome := compute key.params
  (outcome.answer, c.start.finish now key role outcome)

/-- A fetch where calls come one at a time and each ends its computation, so that no key is in
flight when one begins; were it so, there would be nobody to wait for, and the fetch would compute
on its own. -/
def fetch (c : ResponseCache) (now : Instant) (key : CacheKey) (compute : Compute) :
    Except ComputeError ByteArray × ResponseCache :=
  let (admission, c) := c.enter now key
  match admission with
  | .served body => (.ok body, c)
  | .owner => c.run now key .owner compute
  | .alone | .waits => c.run now key .alone compute

/-- Takes the next key that is due for a refresh. -/
def nextRefresh (c : ResponseCache) : Option CacheKey × ResponseCache :=
  let (key, queue) := c.queue.dequeue
  (key, { c with queue := queue })

/-- One round of the refresh worker: the next key in line is computed and filed, unless it is
being computed already. -/
def workOne (c : ResponseCache) (now : Instant) (compute : Compute) : ResponseCache :=
  match c.nextRefresh with
  | (none, c) => c
  | (some key, c) =>
    match c.claim? key with
    | none => c
    | some c => (c.run now key .owner compute).2

/-- The given number of rounds, one after the other. -/
def workRounds (now : Instant) (compute : Compute) : Nat → ResponseCache → ResponseCache
  | 0, c => c
  | n + 1, c => workRounds now compute n (c.workOne now compute)

/-- The refresh worker until the line is empty: a round for each key in it, since nothing the
worker does makes the line longer. -/
def work (c : ResponseCache) (now : Instant) (compute : Compute) : ResponseCache :=
  workRounds now compute c.queue.line.length c

/-- The body that can be served without computing. Apart from the recency of the key it changes
nothing. -/
def get (c : ResponseCache) (now : Instant) (key : CacheKey) : Option ByteArray × ResponseCache :=
  let (body, stores) := c.stores.get now key.text
  (body, { c with stores := stores })

def invalidate (c : ResponseCache) (key : CacheKey) : Bool × ResponseCache :=
  let (removed, stores) := c.stores.invalidate key.text
  (removed, { c with stores := stores })

/-- Removes what is expired for too long, and counts it. -/
def purge (c : ResponseCache) (now : Instant) : Nat × ResponseCache :=
  let (removed, stores) := c.stores.purge now c.config.maxStale
  (removed, { c with stores := stores })

def negativeFlag (c : ResponseCache) (now : Instant) (key : CacheKey) :
    Option Bool × ResponseCache :=
  let (flag, stores) := c.stores.negativeFlag now key.text
  (flag, { c with stores := stores })

def snapshot (c : ResponseCache) : Snapshot where
  toCounters := c.counters
  evictions := c.stores.entries.evictions + c.stores.negatives.evictions
  entries := c.stores.entries.size
  negativeEntries := c.stores.negatives.size
  inFlight := c.gate.count
  pendingRefreshes := c.queue.pending

end ResponseCache

end FizzService
