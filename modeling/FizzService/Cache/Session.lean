/-
A cache in use: a clock, calls that overlap, and the sweep. A call runs until it ends, waits for
the computation of another, or stands in a computation of its own that is held open. After an
action the waiting fetches may be polled, in the order in which they began; those that are
released look their key up again and compute on their own if it is not on record.
-/
import FizzService.Cache.Response

namespace FizzService

/-- The name under which a call is known. -/
abbrev CallId := String

/-- What a call ends with. -/
inductive Answer where
  | body (bytes : ByteArray)
  /-- Whether a refresh computed its key. -/
  | refreshed (done : Bool)
  | failed (error : ComputeError)

/-- How far a call has come. -/
inductive Progress where
  | done (answer : Answer)
  | waiting
  | computing (role : Role)

/-- What a computation was begun for. -/
inductive Purpose where
  /-- By a fetch, for all who want its key. -/
  | fetch
  /-- By a refresh. -/
  | refresh
  /-- By a fetch, for itself only. -/
  | alone
deriving DecidableEq, Repr

def Purpose.role : Purpose → Role
  | fetch | refresh => .owner
  | alone => .alone

/-- What the outcome of a computation is to the call that began it. -/
def Purpose.answer (p : Purpose) (outcome : Outcome) : Answer :=
  match outcome.answer, p with
  | .error e, _ => .failed e
  | .ok _, refresh => .refreshed true
  | .ok bytes, _ => .body bytes

/-- A fetch that waits for the computation of another. -/
structure WaitingFetch where
  id : CallId
  key : CacheKey
  compute : Compute
  /-- Whether a computation of its own is to be held open. -/
  hold : Bool
  waiter : Waiter String

/-- A computation that is held open. It goes on when its caller has left. -/
structure OpenComputation where
  id : CallId
  key : CacheKey
  compute : Compute
  purpose : Purpose
  abandoned : Bool

/-- The sweep purges the cache whenever it wakes, and it sleeps for an interval each time. -/
structure Sweep where
  timer : Timer
  interval : Duration
  due : Instant

/-- A sweep that goes to sleep now. -/
def Sweep.asleep (timer : Timer) (interval : Duration) (now : Instant) : Sweep :=
  ⟨timer, interval, timer.wake now interval⟩

structure Session where
  now : Instant
  cache : ResponseCache
  /-- In the order in which they began. -/
  waiting : List WaitingFetch
  /-- In the order in which they started. -/
  running : List OpenComputation
  sweep : Option Sweep

/-- The actions on a cache in use. Times are durations. -/
inductive Action where
  | fetch (id : CallId) (params : Params) (compute : Compute) (hold : Bool)
  | refresh (id : CallId) (params : Params) (compute : Compute) (hold : Bool)
  /-- Lets a computation that is held open end. -/
  | finish (id : CallId)
  /-- The caller leaves. -/
  | cancel (id : CallId)
  | get (params : Params)
  | set (params : Params) (body : ByteArray)
  | invalidate (params : Params)
  | purge
  | negativeFlag (params : Params)
  | isQueued (params : Params)
  | hitRate
  | nextRefresh
  | advance (time : Duration)
  /-- Waits for a time until nothing is in flight. -/
  | drain (time : Duration)
  | work (compute : Compute)
  | startSweep (timer : Timer) (interval : Duration)
  | stopSweep

/-- What is heard of the end of a computation. -/
inductive Ending where
  | answered (answer : Answer)
  /-- The caller had left. -/
  | abandoned
  /-- No computation of that name is open. -/
  | unknown

inductive Reply where
  | call (progress : Progress)
  | ended (ending : Ending)
  /-- Whether there was a caller to leave. -/
  | cancelled (known : Bool)
  | body (bytes : Option ByteArray)
  | flag (value : Bool)
  | negative (flag : Option Bool)
  | count (n : Nat)
  | rate (value : Decimal)
  | key (next : Option CacheKey)
  | done

namespace Session

def ofCache (cache : ResponseCache) : Session := ⟨0, cache, [], [], none⟩

/-- A cache that has just been built, at the start of the clock. -/
def new (config : CacheConfig) : Except BuildError Session := (ResponseCache.new config).map ofCache

/-- A computation ends. -/
def conclude (s : Session) (job : OpenComputation) : Answer × Session :=
  let outcome := job.compute job.key.params
  (job.purpose.answer outcome,
    { s with cache := s.cache.finish s.now job.key job.purpose.role outcome })

/-- A computation starts; it ends at once or is held open. -/
def launch (s : Session) (job : OpenComputation) (hold : Bool) : Progress × Session :=
  let s := { s with cache := s.cache.start }
  if hold then (.computing job.purpose.role, { s with running := s.running ++ [job] })
  else
    let (answer, s) := s.conclude job
    (.done answer, s)

def fetch (s : Session) (id : CallId) (key : CacheKey) (compute : Compute) (hold : Bool) :
    Progress × Session :=
  let (admission, cache) := s.cache.enter s.now key
  let s := { s with cache := cache }
  match admission with
  | .served body => (.done (.body body), s)
  | .alone => s.launch ⟨id, key, compute, .alone, false⟩ hold
  | .owner => s.launch ⟨id, key, compute, .fetch, false⟩ hold
  | .waits =>
    -- It has just seen its key in flight.
    let waiter : Waiter String := ⟨.released key.text, some s.cache.gate.broadcasts⟩
    (.waiting, { s with waiting := s.waiting ++ [⟨id, key, compute, hold, waiter⟩] })

def refresh (s : Session) (id : CallId) (key : CacheKey) (compute : Compute) (hold : Bool) :
    Progress × Session :=
  match s.cache.claim? key with
  | some cache => { s with cache := cache }.launch ⟨id, key, compute, .refresh, false⟩ hold
  | none => (.done (.refreshed false), s)

/-- A waiting fetch goes on after the release of its key. -/
def resume (s : Session) (f : WaitingFetch) : Progress × Session :=
  let (found, cache) := s.cache.lookup s.now f.key
  let s := { s with cache := cache }
  match found with
  | .served body => (.done (.body body), s)
  | .bypass | .missing => s.launch ⟨f.id, f.key, f.compute, .alone, false⟩ f.hold

def finish (s : Session) (id : CallId) : Ending × Session :=
  match s.running.find? (·.id = id) with
  | none => (.unknown, s)
  | some job =>
    let (answer, s) := { s with running := s.running.eraseP (·.id = id) }.conclude job
    (if job.abandoned then .abandoned else .answered answer, s)

/-- A waiting fetch just disappears; a computation that is held open loses its caller. -/
def cancel (s : Session) (id : CallId) : Bool × Session :=
  if s.waiting.any (·.id = id) then
    (true, { s with waiting := s.waiting.filter (·.id ≠ id) })
  else
    (s.running.any fun job => job.id = id && !job.abandoned,
      { s with running := s.running.map fun job =>
          if job.id = id then { job with abandoned := true } else job })

/-- The sweep wakes if it is due, and sleeps for another interval from now. -/
def sweepIfDue (s : Session) : Session :=
  match s.sweep with
  | some sweep =>
    if sweep.due ≤ s.now then
      { s with
        cache := (s.cache.purge s.now).2
        sweep := some (.asleep sweep.timer sweep.interval s.now) }
    else s
  | none => s

def advance (s : Session) (time : Duration) : Session := { s with now := s.now + time }.sweepIfDue

/-- Waits until nothing is in flight, for `time` at most. -/
def drain (s : Session) (time : Duration) : Bool × Session :=
  if s.cache.gate.isIdle then (true, s) else (false, s.advance time)

/-- Starts the sweep, with an interval of a second at least. -/
def startSweep (s : Session) (timer : Timer) (interval : Duration) : Session :=
  { s with sweep := some (.asleep timer (max interval (.ofSeconds 1)) s.now) }

def perform (s : Session) : Action → Reply × Session
  | .fetch id params compute hold =>
    let (progress, s) := s.fetch id (.ofParams params) compute hold
    (.call progress, s)
  | .refresh id params compute hold =>
    let (progress, s) := s.refresh id (.ofParams params) compute hold
    (.call progress, s)
  | .finish id =>
    let (ending, s) := s.finish id
    (.ended ending, s)
  | .cancel id =>
    let (known, s) := s.cancel id
    (.cancelled known, s)
  | .get params =>
    let (body, cache) := s.cache.get s.now (.ofParams params)
    (.body body, { s with cache := cache })
  | .set params body => (.done, { s with cache := s.cache.set s.now (.ofParams params) body })
  | .invalidate params =>
    let (removed, cache) := s.cache.invalidate (.ofParams params)
    (.flag removed, { s with cache := cache })
  | .purge =>
    let (removed, cache) := s.cache.purge s.now
    (.count removed, { s with cache := cache })
  | .negativeFlag params =>
    let (flag, cache) := s.cache.negativeFlag s.now (.ofParams params)
    (.negative flag, { s with cache := cache })
  | .isQueued params => (.flag (s.cache.queue.isQueued (.ofParams params)), s)
  | .hitRate => (.rate s.cache.snapshot.hitRate, s)
  | .nextRefresh =>
    let (key, cache) := s.cache.nextRefresh
    (.key key, { s with cache := cache })
  | .advance time => (.done, s.advance time)
  | .drain time =>
    let (idle, s) := s.drain time
    (.flag idle, s)
  | .work compute => (.done, { s with cache := s.cache.work s.now compute })
  | .startSweep timer interval => (.done, s.startSweep timer interval)
  | .stopSweep => (.done, { s with sweep := none })

/-- Polls the given fetches in turn. Those that are still kept waiting go on to wait; the others
resume, each as far as it gets before the next is polled. -/
def pollAll : List WaitingFetch → Session → List (CallId × Progress) × Session
  | [], s => ([], s)
  | f :: fs, s =>
    match f.waiter.poll s.cache.gate with
    | some waiter => pollAll fs { s with waiting := s.waiting ++ [{ f with waiter := waiter }] }
    | none =>
      let (progress, s) := s.resume f
      let (events, s) := pollAll fs s
      ((f.id, progress) :: events, s)

/-- Polls every waiting fetch once, and tells how far those that resumed have come. -/
def settle (s : Session) : List (CallId × Progress) × Session :=
  pollAll s.waiting { s with waiting := [] }

/-- An action, with or without a poll of the waiting fetches after it. -/
def step (s : Session) (action : Action) (settled : Bool) :
    Reply × List (CallId × Progress) × Session :=
  let (reply, s) := s.perform action
  if settled then (reply, s.settle) else (reply, [], s)

end Session

end FizzService
