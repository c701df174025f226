/-
The figures of the cache, held against what happened to the calls on it. What
happens is told without the counters, by what is on record, who owns a key and
who waits (`Happening`, `runHappenings`). The counters are written at different
moments: a miss when a fetch begins, a wait when it finds its key taken, a
computation at its start, a failure at its end. So each account is kept open
over the moments between: who still waits and what still computes is part of it
(`Balanced`). Each action and each fetch that goes on keeps the accounts
balanced, and so does every run (`accounts_balance`).
-/
import FizzService.Proofs.Cache.Evictions
import FizzService.Proofs.Cache.Fields
import FizzService.Proofs.Cache.Queue

namespace FizzService

/-- What can happen to the calls on a cache. -/
inductive Happening where
  /-- A fetch begins. -/
  | fetch
  /-- A fetch becomes the owner of its key. -/
  | owner
  /-- A waiting fetch is given up. -/
  | cancelled
  /-- A waiting fetch goes on; its second look-up finds a record, or finds none. -/
  | resumed (found : Bool)
  /-- A refresh, or a round of the worker, becomes the owner of its key. -/
  | refresh
  /-- A computation ends, with an error or otherwise. -/
  | ended (failed : Bool)
  /-- A stale entry is found under a key that is not in flight. -/
  | stale
  /-- A key is taken out of the refresh queue. -/
  | dequeued
deriving DecidableEq, Repr

/-- Whether a computation returned an error. A crash returns nothing. -/
def Outcome.isFailure : Outcome → Bool
  | failure _ => true
  | _ => false

namespace Counters

/-- The look-ups that found a record. -/
def found (c : Counters) : Nat := c.hits + c.staleHits + c.negativeHits + c.bypasses

/-- The refreshes that were wanted. -/
def wished (c : Counters) : Nat := c.refreshEnqueued + c.refreshDropped

end Counters

/-- Whether a look-up found a record. -/
def Lookup.isFound : Lookup → Bool
  | missing => false
  | _ => true

/-- Whether a look-up found the record of an oversized result. -/
def Lookup.isBypass : Lookup → Bool
  | bypass => true
  | _ => false

namespace ResponseCache

/-- What the end of a computation is, if it is not held open. -/
def endings (hold : Bool) (outcome : Outcome) : List Happening := if hold then [] else [.ended outcome.isFailure]

/-- The stale entry that a look-up finds. -/
def staleness (stale : Bool) : List Happening := List.replicate stale.toNat .stale

@[simp] theorem count_staleness (stale : Bool) (what : Happening) :
    (staleness stale).count what = if what = .stale then stale.toNat else 0 := by
  cases stale <;> cases what <;> rfl

/-- The key that is taken out of the line. -/
def departures (c : ResponseCache) : List Happening := c.nextRefresh.1.toList.map fun _ => .dequeued

/-- What happens in a round of the worker. -/
def roundHappenings (c : ResponseCache) (compute : Compute) : List Happening :=
  c.departures ++
    match c.roundKey? with
    | some key => .refresh :: endings false (compute key.params)
    | none => []

/-- What happens in the first rounds of the worker. -/
def roundsHappenings (now : Instant) (compute : Compute) : Nat → ResponseCache → List Happening
  | 0, _ => []
  | n + 1, c => c.roundHappenings compute ++ roundsHappenings now compute n (c.workOne now compute)

end ResponseCache

namespace Session

open ResponseCache (endings staleness roundsHappenings)

/-- What happens in an action. -/
def happenings (s : Session) : Action → List Happening
  | .fetch _ params compute hold =>
    .fetch :: (staleness (s.cache.wantsRefresh s.now (.ofParams params)) ++
      match (s.cache.enter s.now (.ofParams params)).1 with
      | .served _ | .waits => []
      | .alone => endings hold (compute params)
      | .owner => .owner :: endings hold (compute params))
  | .refresh _ params compute hold =>
    if s.cache.gate.isInFlight (CacheKey.ofParams params).text then []
    else .refresh :: endings hold (compute params)
  | .finish id =>
    match s.running.find? (·.id = id) with
    | some job => [.ended (job.compute job.key.params).isFailure]
    | none => []
  | .cancel id => List.replicate (s.waiting.filter (·.id = id)).length .cancelled
  | .nextRefresh => s.cache.departures
  | .work compute => roundsHappenings s.now compute s.cache.queue.line.length s.cache
  | _ => []

/-- What happens when a waiting fetch goes on. -/
def resumption (s : Session) (f : WaitingFetch) : List Happening :=
  .resumed (s.cache.lookup s.now f.key).1.isFound :: (staleness (s.cache.wantsRefresh s.now f.key) ++
    match (s.cache.lookup s.now f.key).1 with
    | .served _ => []
    | .bypass | .missing => endings f.hold (f.compute f.key.params))

/-- What happens in a step. -/
def stepHappenings (s : Session) (t : Step) : List Happening :=
  s.happenings t.action ++
    if t.settled then (s.perform t.action).2.ready.flatMap (s.perform t.action).2.resumption else []

/-- What happens in a run. -/
def runHappenings (s : Session) : List Step → List Happening
  | [] => []
  | t :: run => s.stepHappenings t ++ (s.next t).runHappenings run

end Session

/-! ## What each part of a call counts -/

namespace RefreshQueue

variable {q : RefreshQueue}

theorem pending_enqueue (q : RefreshQueue) (key : CacheKey) :
    (q.enqueue key).2.pending = q.pending + (q.enqueue key).1.toNat := by
  unfold enqueue
  split
  · rfl
  · split
    · rfl
    · simp [pending]

theorem Sound.pending_eq (h : q.Sound) : q.pending = q.line.length := by
  rw [pending, h.marks, List.length_map]

theorem Sound.pending_dequeue (h : q.Sound) : q.dequeue.2.pending + q.dequeue.1.toList.length = q.pending := by
  rw [h.pending_eq, h.dequeue.pending_eq, line_dequeue]
  unfold RefreshQueue.dequeue
  cases q.line <;> rfl

end RefreshQueue

namespace ResponseCache

variable (c : ResponseCache) (now : Instant) (key : CacheKey)

/-- What a look-up adds to the counters. -/
structure LookupCounts (c d : ResponseCache) (result : Lookup) (stale : Bool) : Prop where
  found : d.counters.found = c.counters.found + result.isFound.toNat
  bypasses : d.counters.bypasses = c.counters.bypasses + result.isBypass.toNat
  misses : d.counters.misses = c.counters.misses
  coalescedWaits : d.counters.coalescedWaits = c.counters.coalescedWaits
  computations : d.counters.computations = c.counters.computations
  computeFailures : d.counters.computeFailures = c.counters.computeFailures
  wished : d.counters.wished = c.counters.wished + stale.toNat
  line : d.counters.refreshEnqueued + c.queue.pending = c.counters.refreshEnqueued + d.queue.pending

/-- A wish for a refresh is counted either way, unless the key is in flight. -/
theorem requestRefresh_counts :
    LookupCounts c (c.requestRefresh key) .missing (!c.gate.isInFlight key.text) := by
  unfold requestRefresh
  cases c.gate.isInFlight key.text with
  | true => exact ⟨rfl, rfl, rfl, rfl, rfl, rfl, rfl, rfl⟩
  | false =>
    have hpending := c.queue.pending_enqueue key
    generalize c.queue.enqueue key = answer at hpending ⊢
    obtain ⟨queued, queue⟩ := answer
    cases queued with
    | true =>
      refine ⟨rfl, rfl, rfl, rfl, rfl, rfl, Nat.add_right_comm .., ?_⟩
      change c.counters.refreshEnqueued + 1 + c.queue.pending = _ + queue.pending
      rw [hpending, Nat.add_assoc, Nat.add_comm 1]
      rfl
    | false => exact ⟨rfl, rfl, rfl, rfl, rfl, rfl, rfl, congrArg _ hpending.symm⟩

theorem lookup_counts : LookupCounts c (c.lookup now key).2 (c.lookup now key).1 (c.wantsRefresh now key) := by
  unfold lookup wantsRefresh
  rcases c.stores.find now key.text with ⟨f, stores⟩
  cases f with
  | nothing => exact ⟨rfl, rfl, rfl, rfl, rfl, rfl, rfl, rfl⟩
  | negative record =>
    cases record with
    | empty =>
      refine ⟨?_, rfl, rfl, rfl, rfl, rfl, rfl, rfl⟩
      simp only [count, Counters.record, Counters.found, Lookup.isFound, Bool.toNat_true]
      omega
    | oversized payload => exact ⟨rfl, rfl, rfl, rfl, rfl, rfl, rfl, rfl⟩
  | entry body expired =>
    cases expired with
    | false =>
      refine ⟨?_, rfl, rfl, rfl, rfl, rfl, rfl, rfl⟩
      simp only [count, Counters.record, Counters.found, Lookup.isFound, Bool.toNat_true]
      omega
    | true =>
      have hrefresh := requestRefresh_counts ({ c with stores := stores }.count .staleHit) key
      refine ⟨hrefresh.found.trans ?_, hrefresh.bypasses, hrefresh.misses, hrefresh.coalescedWaits,
        hrefresh.computations, hrefresh.computeFailures, hrefresh.wished, hrefresh.line⟩
      simp only [count, Counters.record, Counters.found, Lookup.isFound, Bool.toNat_true, Bool.toNat_false]
      omega

theorem counters_finish (role : Role) (outcome : Outcome) : (c.finish now key role outcome).counters =
    { c.counters with computeFailures := c.counters.computeFailures + outcome.isFailure.toNat } := by
  cases role <;> cases outcome <;> rfl

/-! ## The accounts -/

/-- The accounts of a cache with so many fetches that wait, computations that are held open, and
computations that are due to start. -/
structure Balanced (c : ResponseCache) (waiting running due : Nat) (past : List Happening) : Prop where
  misses : c.counters.misses = past.count .owner + c.counters.coalescedWaits
  waits : c.counters.coalescedWaits =
    waiting + past.count .cancelled + (past.count (.resumed true) + past.count (.resumed false))
  lookups : c.counters.found + c.counters.misses = past.count .fetch + past.count (.resumed true)
  computations : c.counters.computations + due =
    past.count .owner + past.count .refresh + c.counters.bypasses + past.count (.resumed false)
  endings : c.counters.computations = past.count (.ended true) + past.count (.ended false) + running
  failures : c.counters.computeFailures = past.count (.ended true)
  wished : c.counters.wished = past.count .stale
  line : c.counters.refreshEnqueued = c.queue.pending + past.count .dequeued

variable {c d : ResponseCache} {waiting running due : Nat} {past : List Happening} {result : Lookup} {stale : Bool}

theorem Balanced.empty {c : ResponseCache} (hcounters : c.counters = {}) (hqueue : c.queue.pending = 0) :
    Balanced c 0 0 0 [] := by
  constructor <;> simp [hcounters, hqueue, Counters.found, Counters.wished]

/-- The accounts tell nothing of the stores and the gate. -/
theorem Balanced.congr (h : Balanced c waiting running due past) (hcounters : d.counters = c.counters)
    (hqueue : d.queue = c.queue) : Balanced d waiting running due past := by
  obtain ⟨hmisses, hwaits, hlookups, hcomputations, hendings, hfailures, hwished, hline⟩ := h
  constructor <;> simp only [hcounters, hqueue] <;> assumption

/-- The look-up of a fetch, where a record is found. -/
theorem Balanced.found (h : Balanced c waiting running 0 past) (hl : LookupCounts c d result stale)
    (hfound : result.isFound = true) :
    Balanced d waiting running result.isBypass.toNat (past ++ .fetch :: staleness stale) := by
  obtain ⟨hmisses, hwaits, hlookups, hcomputations, hendings, hfailures, hwished, hline⟩ := h
  obtain ⟨lfound, lbypasses, lmisses, lwaits, lcomputations, lfailures, lwished, lline⟩ := hl
  rw [hfound] at lfound
  constructor <;> simp <;> simp at lfound <;> omega

/-- The second look-up of a fetch that has waited. -/
theorem Balanced.resumed (h : Balanced c (waiting + 1) running 0 past) (hl : LookupCounts c d result stale) :
    Balanced d waiting running (result.isBypass.toNat + (!result.isFound).toNat)
      (past ++ .resumed result.isFound :: staleness stale) := by
  obtain ⟨hmisses, hwaits, hlookups, hcomputations, hendings, hfailures, hwished, hline⟩ := h
  obtain ⟨lfound, lbypasses, lmisses, lwaits, lcomputations, lfailures, lwished, lline⟩ := hl
  generalize result.isFound = found at *
  cases found <;> constructor <;> simp <;> simp at lfound <;> omega

/-- A fetch finds nothing and becomes the owner of its key. -/
theorem Balanced.owner (h : Balanced c waiting running 0 past) (hl : LookupCounts c d .missing stale)
    (gate : Gate String) : Balanced { d.count .miss with gate := gate } waiting running 1
      (past ++ .fetch :: (staleness stale ++ [.owner])) := by
  obtain ⟨hmisses, hwaits, hlookups, hcomputations, hendings, hfailures, hwished, hline⟩ := h
  obtain ⟨lfound, lbypasses, lmisses, lwaits, lcomputations, lfailures, lwished, lline⟩ := hl
  simp only [Counters.found, Counters.wished, Lookup.isFound, Lookup.isBypass, Bool.toNat_false] at *
  constructor <;> simp [count, Counters.record, Counters.found, Counters.wished] <;> omega

/-- A fetch finds nothing and has to wait for the owner of its key. -/
theorem Balanced.awaits (h : Balanced c waiting running 0 past) (hl : LookupCounts c d .missing stale) :
    Balanced ((d.count .miss).count .coalescedWait) (waiting + 1) running 0
      (past ++ .fetch :: staleness stale) := by
  obtain ⟨hmisses, hwaits, hlookups, hcomputations, hendings, hfailures, hwished, hline⟩ := h
  obtain ⟨lfound, lbypasses, lmisses, lwaits, lcomputations, lfailures, lwished, lline⟩ := hl
  simp only [Counters.found, Counters.wished, Lookup.isFound, Lookup.isBypass, Bool.toNat_false] at *
  constructor <;> simp [count, Counters.record, Counters.found, Counters.wished] <;> omega

theorem Balanced.cancelled {n : Nat} (h : Balanced c (waiting + n) running due past) :
    Balanced c waiting running due (past ++ List.replicate n .cancelled) := by
  obtain ⟨hmisses, hwaits, hlookups, hcomputations, hendings, hfailures, hwished, hline⟩ := h
  constructor <;> simp [List.count_replicate] <;> omega

theorem Balanced.claimed (h : Balanced c waiting running 0 past) (gate : Gate String) :
    Balanced { c with gate := gate } waiting running 1 (past ++ [.refresh]) := by
  obtain ⟨hmisses, hwaits, hlookups, hcomputations, hendings, hfailures, hwished, hline⟩ := h
  constructor <;> simp <;> omega

theorem Balanced.started (h : Balanced c waiting running 1 past) : Balanced c.start waiting (running + 1) 0 past :=
  ⟨h.misses, h.waits, h.lookups, h.computations, congrArg (· + 1) h.endings, h.failures, h.wished, h.line⟩

theorem Balanced.ended (h : Balanced c waiting (running + 1) due past) (now : Instant) (key : CacheKey) (role : Role)
    (outcome : Outcome) :
    Balanced (c.finish now key role outcome) waiting running due (past ++ [.ended outcome.isFailure]) := by
  obtain ⟨hmisses, hwaits, hlookups, hcomputations, hendings, hfailures, hwished, hline⟩ := h
  simp only [Counters.found, Counters.wished] at *
  cases hfailed : outcome.isFailure <;> constructor <;>
    simp [counters_finish, queue_finish, hfailed, Counters.found, Counters.wished] <;> omega

theorem Balanced.dequeued (h : Balanced c waiting running due past) (hq : c.queue.Sound) :
    Balanced { c with queue := c.queue.dequeue.2 } waiting running due (past ++ c.departures) := by
  obtain ⟨hmisses, hwaits, hlookups, hcomputations, hendings, hfailures, hwished, hline⟩ := h
  have hpending := hq.pending_dequeue
  have hdepartures : c.departures = List.replicate c.queue.dequeue.1.toList.length .dequeued := List.map_const' ..
  rw [hdepartures]
  constructor <;> simp [List.count_replicate] <;> omega

end ResponseCache

/-! ## Every action and every poll -/

namespace Session

open ResponseCache (endings staleness roundsHappenings)

/-- The accounts of a session. -/
def Balanced (s : Session) (past : List Happening) : Prop :=
  s.cache.Balanced s.waiting.length s.running.length 0 past

variable {s : Session} {past : List Happening} {waiting : Nat}

/-- A computation that is due starts, and ends at once if it is not held open. -/
theorem balanced_launch {s : Session} (h : s.cache.Balanced waiting s.running.length 1 past) (job : OpenComputation)
    (hold : Bool) : (s.launch job hold).2.cache.Balanced waiting (s.launch job hold).2.running.length 0
      (past ++ endings hold (job.compute job.key.params)) := by
  cases hold with
  | true => simpa [launch, endings] using h.started
  | false => exact h.started.ended ..

theorem Balanced.launch {s : Session} (h : s.cache.Balanced s.waiting.length s.running.length 1 past)
    (job : OpenComputation) (hold : Bool) :
    (s.launch job hold).2.Balanced (past ++ endings hold (job.compute job.key.params)) := by
  have hlaunched := balanced_launch h job hold
  rwa [← (s.launch_keeps job hold).2.2.1] at hlaunched

theorem Balanced.fetch (h : s.Balanced past) (id : CallId) (params : Params) (compute : Compute) (hold : Bool) :
    (s.perform (.fetch id params compute hold)).2.Balanced
      (past ++ s.happenings (.fetch id params compute hold)) := by
  have hl := s.cache.lookup_counts s.now (.ofParams params)
  have henter := s.cache.enter_eq s.now (.ofParams params)
  simp only [perform, happenings]
  cases hfound : (s.cache.lookup s.now (.ofParams params)).1 with
  | served body =>
    simp only [hfound] at hl henter
    rw [henter, fetch_served _ _ _ _ _ hfound, List.append_nil]
    exact ResponseCache.Balanced.found h hl rfl
  | bypass =>
    simp only [hfound] at hl henter
    rw [henter, fetch_bypass _ _ _ _ _ hfound, ← List.cons_append, ← List.append_assoc]
    exact .launch (s := { s with cache := _ }) (ResponseCache.Balanced.found h hl rfl) _ hold
  | missing =>
    cases hk : s.cache.gate.isInFlight (CacheKey.ofParams params).text with
    | false =>
      simp only [hfound, hk, Bool.false_eq_true, if_false] at hl henter
      rw [henter, fetch_owner _ _ _ _ _ hfound hk, ← List.singleton_append (l := endings hold _),
        ← List.append_assoc, ← List.cons_append, ← List.append_assoc]
      exact .launch (s := { s with cache := _ }) (ResponseCache.Balanced.owner h hl _) _ hold
    | true =>
      simp only [hfound, hk, if_true] at hl henter
      rw [henter, fetch_waits _ _ _ _ _ hfound hk, List.append_nil]
      simpa [Balanced] using ResponseCache.Balanced.awaits h hl

theorem Balanced.refresh (h : s.Balanced past) (id : CallId) (params : Params) (compute : Compute) (hold : Bool) :
    (s.perform (.refresh id params compute hold)).2.Balanced
      (past ++ s.happenings (.refresh id params compute hold)) := by
  simp only [perform, Session.refresh, ResponseCache.claim?_eq, happenings]
  cases s.cache.gate.isInFlight (CacheKey.ofParams params).text with
  | true => simpa using h
  | false =>
    simp only [Bool.false_eq_true, if_false]
    rw [← List.singleton_append (l := endings hold _), ← List.append_assoc]
    exact .launch (s := { s with cache := _ }) (ResponseCache.Balanced.claimed h
      ⟨s.cache.gate.inFlight ++ [(CacheKey.ofParams params).text], s.cache.gate.broadcasts⟩) _ hold

theorem Balanced.finish (h : s.Balanced past) (id : CallId) :
    (s.perform (.finish id)).2.Balanced (past ++ s.happenings (.finish id)) := by
  simp only [perform, happenings]
  cases hfound : s.running.find? (·.id = id) with
  | none => simpa [Session.finish, hfound] using h
  | some job =>
    have hmem := List.mem_of_find?_eq_some hfound
    have hpos := List.length_pos_of_mem hmem
    have hlength : (s.running.eraseP (·.id = id)).length + 1 = s.running.length := by
      rw [List.length_eraseP_of_mem hmem (List.find?_some hfound)]
      omega
    rw [finish_found _ _ hfound]
    unfold Balanced at h
    rw [← hlength] at h
    exact ResponseCache.Balanced.ended h ..

theorem Balanced.cancel (h : s.Balanced past) (id : CallId) :
    (s.perform (.cancel id)).2.Balanced (past ++ s.happenings (.cancel id)) := by
  obtain ⟨-, -, hwaiting, hrunning⟩ := s.cancel_keeps id
  have hcache : (s.cancel id).2.cache = s.cache := by
    unfold Session.cancel
    split <;> rfl
  have hrunning : (s.cancel id).2.running.length = s.running.length := by
    rw [hrunning]
    split
    · rfl
    · exact List.length_map ..
  have hlength : s.waiting.length =
      (s.waiting.filter (·.id ≠ id)).length + (s.waiting.filter (·.id = id)).length := by
    rw [List.length_eq_countP_add_countP (fun f => f.id = id), Nat.add_comm, List.countP_eq_length_filter,
      List.countP_eq_length_filter]
    simp
  simp only [perform, happenings, Balanced, hcache, hwaiting, hrunning]
  unfold Balanced at h
  rw [hlength] at h
  exact ResponseCache.Balanced.cancelled h

theorem Balanced.round {now : Instant} {running : Nat} {c : ResponseCache} (h : c.Balanced waiting running 0 past)
    (hq : c.queue.Sound) (compute : Compute) :
    (c.workOne now compute).Balanced waiting running 0 (past ++ c.roundHappenings compute) := by
  rw [ResponseCache.workOne_eq, ResponseCache.roundHappenings, ← List.append_assoc]
  have hdequeued := h.dequeued hq
  cases c.roundKey? with
  | none => rwa [List.append_nil]
  | some key =>
    simp only
    rw [← List.singleton_append (l := endings false _), ← List.append_assoc]
    exact (hdequeued.claimed _).started.ended ..

theorem Balanced.rounds {now : Instant} {compute : Compute} {running n : Nat} {c : ResponseCache}
    (h : c.Balanced waiting running 0 past) (hq : c.queue.Sound) :
    (ResponseCache.workRounds now compute n c).Balanced waiting running 0
      (past ++ roundsHappenings now compute n c) := by
  induction n generalizing c past with
  | zero => rwa [roundsHappenings, List.append_nil]
  | succ n ih =>
    rw [roundsHappenings, ← List.append_assoc]
    exact ih (Balanced.round h hq compute) (by rw [ResponseCache.queue_workOne]; exact hq.dequeue)

theorem Balanced.advance (h : s.Balanced past) (time : Duration) : (s.advance time).Balanced past := by
  unfold Session.advance sweepIfDue
  split
  · split
    · exact ResponseCache.Balanced.congr h rfl rfl
    · exact h
  · exact h

/-- Each action keeps the accounts balanced. -/
theorem Balanced.perform (h : s.Balanced past) (hq : s.cache.queue.Sound) (a : Action) :
    (s.perform a).2.Balanced (past ++ s.happenings a) := by
  cases a with
  | fetch id params compute hold => exact h.fetch id params compute hold
  | refresh id params compute hold => exact h.refresh id params compute hold
  | finish id => exact h.finish id
  | cancel id => exact h.cancel id
  | work compute => exact Balanced.rounds h hq
  | nextRefresh => exact ResponseCache.Balanced.dequeued h hq
  | advance time => exact (past.append_nil).symm ▸ h.advance time
  | drain time =>
    refine (past.append_nil).symm ▸ ?_
    simp only [Session.perform, drain]
    split
    · exact h
    · exact h.advance time
  | get params | set params body | invalidate params | purge | negativeFlag params | isQueued params
  | hitRate | startSweep timer interval | stopSweep =>
    exact (past.append_nil).symm ▸ ResponseCache.Balanced.congr h rfl rfl

/-- A fetch that has waited goes on. -/
theorem balanced_resume {t : Session} (h : t.cache.Balanced (waiting + 1) t.running.length 0 past) (f : WaitingFetch) :
    (t.resume f).2.cache.Balanced waiting (t.resume f).2.running.length 0 (past ++ t.resumption f) := by
  have hresumed := h.resumed (t.cache.lookup_counts t.now f.key)
  unfold Session.resume resumption
  generalize t.cache.lookup t.now f.key = looked at hresumed ⊢
  obtain ⟨found, cache⟩ := looked
  cases found with
  | served body =>
    simp only [List.append_nil]
    exact hresumed
  | bypass | missing =>
    simp only
    rw [← List.cons_append, ← List.append_assoc]
    exact balanced_launch (s := { t with cache := cache }) hresumed _ f.hold

/-- What happens when a fetch goes on is the same whoever went on before it. -/
theorem Alike.resumption {t : Session} (h : s.Alike t)
    (hwants : t.cache.wantsRefresh t.now = s.cache.wantsRefresh s.now) (f : WaitingFetch) :
    t.resumption f = s.resumption f := by
  rw [Session.resumption, Session.resumption, h.found, hwants]

theorem balanced_pollAll {t : Session} (fs : List WaitingFetch) (halike : s.Alike t)
    (hwants : t.cache.wantsRefresh t.now = s.cache.wantsRefresh s.now)
    (h : t.cache.Balanced (t.waiting.length + fs.length) t.running.length 0 past) :
    (pollAll fs t).2.Balanced
      (past ++ (fs.filter fun f => (f.waiter.poll s.cache.gate).isNone).flatMap s.resumption) := by
  induction fs generalizing t past with
  | nil => exact (past.append_nil).symm ▸ h
  | cons f fs ih =>
    rw [List.length_cons] at h
    rw [pollAll, halike.gate]
    cases hp : f.waiter.poll s.cache.gate with
    | some w =>
      -- It counts among those that wait, before the poll of it and after.
      simp only [List.filter_cons, hp, Option.isNone_some, Bool.false_eq_true, if_false]
      refine ih (halike.waiting _) hwants ?_
      rwa [List.length_append, List.length_singleton, Nat.add_assoc, Nat.add_comm 1]
    | none =>
      simp only [List.filter_cons, hp, Option.isNone_none, if_true, List.flatMap_cons]
      rw [← halike.resumption hwants f, ← List.append_assoc]
      refine ih (halike.resume f) ((t.wantsRefresh_resume f).trans hwants) ?_
      rw [(t.resume_snd f).2.2.1]
      exact balanced_resume h f

/-- A poll keeps the accounts balanced. -/
theorem Balanced.settle (h : s.Balanced past) : s.settle.2.Balanced (past ++ s.ready.flatMap s.resumption) := by
  refine balanced_pollAll s.waiting ((Alike.refl s).waiting []) rfl ?_
  rw [List.length_nil, Nat.zero_add]
  exact h

/-! ## Runs -/

theorem Balanced.new {config : CacheConfig} (h : Session.new config = .ok s) : s.Balanced [] := by
  obtain ⟨hsound, -, hline⟩ := RefreshQueue.Sound.new (queue_new h)
  have hpending : s.cache.queue.pending = 0 := by rw [hsound.pending_eq, hline, List.length_nil]
  obtain ⟨-, queue, rfl⟩ := new_eq_ok h
  exact .empty rfl hpending

theorem Balanced.next (h : s.Balanced past) (hq : s.cache.queue.Sound) (t : Step) :
    (s.next t).Balanced (past ++ s.stepHappenings t) := by
  rw [next_eq, stepHappenings, ← List.append_assoc]
  have hperformed := h.perform hq t.action
  split
  · exact hperformed.settle
  · rwa [List.append_nil]

theorem Balanced.after {n : Nat} (h : s.Balanced past) (hline : s.LineFor n) (run : List Step) :
    (s.after run).Balanced (past ++ s.runHappenings run) := by
  -- The line is carried along: a key counts as dequeued only if the queue's marks agree with its line.
  induction run generalizing s past with
  | nil => exact (past.append_nil).symm ▸ h
  | cons t run ih =>
    rw [runHappenings, ← List.append_assoc]
    exact ih (h.next hline.1 t) (next_induction hline (fun a hs => hs.perform a) (fun _ hs => hs.settle) t)

/-- **The figures of a cache tell what happened to the calls on it.** In every state that a cache
comes to, for what has happened (`past`) and what is going on:

* the misses are the fetches that became owners and those that had to wait, and who had to wait still
  waits, was given up or went on;
* each look-up that began a fetch is counted once, by what it found, and so is the second one of a fetch
  that went on if it found a record;
* the computations are those of owners, of refreshes, of fetches that met an oversized record and of
  fetches that went on and found none; they have ended or are held open, and the failures are those
  that ended in an error;
* the refreshes asked for are the stale entries met while their key was not in flight, and those let into
  the queue are there or were taken out;
* the evictions are the records that others pushed out. -/
theorem accounts_balance {config : CacheConfig} {s₀ : Session} (h : Session.new config = .ok s₀) (run : List Step) :
    let figures := (s₀.after run).cache.snapshot
    let past := s₀.runHappenings run
    figures.misses = past.count .owner + figures.coalescedWaits ∧
    figures.coalescedWaits = (s₀.after run).waiting.length + past.count .cancelled +
      (past.count (.resumed true) + past.count (.resumed false)) ∧
    figures.hits + figures.staleHits + figures.negativeHits + figures.bypasses + figures.misses =
      past.count .fetch + past.count (.resumed true) ∧
    figures.computations = (figures.misses - figures.coalescedWaits) + past.count .refresh + figures.bypasses +
      past.count (.resumed false) ∧
    figures.computations = past.count (.ended true) + past.count (.ended false) + (s₀.after run).running.length ∧
    figures.computeFailures = past.count (.ended true) ∧
    figures.refreshEnqueued + figures.refreshDropped = past.count .stale ∧
    figures.refreshEnqueued = figures.pendingRefreshes + past.count .dequeued ∧
    figures.evictions = (s₀.pushedOut run).length := by
  have hevictions := (Orderly.new h).evictions_after run
  have hbalanced := (Balanced.new h).after (LineFor.new h) run
  rw [List.nil_append] at hbalanced
  have hnone : s₀.cache.stores.evictions = 0 := by
    obtain ⟨-, queue, rfl⟩ := new_eq_ok h
    rfl
  rw [hnone, Nat.zero_add] at hevictions
  refine ⟨hbalanced.misses, hbalanced.waits, hbalanced.lookups, ?_, hbalanced.endings, hbalanced.failures,
    hbalanced.wished, hbalanced.line, hevictions⟩
  have howners : (s₀.after run).cache.counters.misses - (s₀.after run).cache.counters.coalescedWaits =
      (s₀.runHappenings run).count .owner := by
    rw [hbalanced.misses, Nat.add_sub_cancel]
  have hstarted := hbalanced.computations
  simp only [ResponseCache.snapshot]
  omega

/-- A fetch fails while two others wait for it, one of which is given up. -/
def contended : List Step :=
  [⟨.fetch "a" default (fun _ => .failure (.failed "")) true, true⟩,
    ⟨.fetch "b" default (fun _ => .crash) true, true⟩, ⟨.fetch "c" default (fun _ => .crash) true, true⟩,
    ⟨.cancel "c", true⟩, ⟨.finish "a", true⟩]

example : small.runHappenings contended =
    [.fetch, .owner, .fetch, .fetch, .cancelled, .ended true, .resumed false] := rfl

/-- Of two fetches that had to wait one was given up, and the other computes on its own. -/
theorem accounts_balance_small : Session.new .small = .ok .small ∧
    (small.after contended).cache.snapshot.coalescedWaits = 0 + 1 + (0 + 1) ∧
    (small.after contended).cache.snapshot.computations = 1 + 0 + 1 := by
  obtain ⟨-, hwaits, -, -, hcomputations, -⟩ := accounts_balance new_small contended
  exact ⟨new_small, hwaits.trans rfl, hcomputations.trans rfl⟩

end Session

end FizzService
