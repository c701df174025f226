/-
Failures leave no trace. Whatever a computation is run for, its end is made in
one piece (`Closing`), and there are few ways to come to it: it was held open
and is let go, or it ends at once in a fetch, in a refresh, in a round of the
worker or in a poll (`Closes`). Each of them does to the cache what `finish`
does, and an owner's key is in flight until then (`Closes.concluded`). So all
that a failure changes is the count of the failures and the registry, where
its key is free again; and a computation on its own changes neither the
stores, the queue nor the registry, whatever it ends with.
-/
import FizzService.Proofs.Cache.Accounts
import FizzService.Proofs.Cache.Ownership

namespace FizzService

/-- What a call has ended with, if it has. -/
def Progress.answer? : Progress → Option Answer
  | done answer => some answer
  | _ => none

/-- What the caller hears, if there is one. -/
def Ending.answer? : Ending → Option Answer
  | answered answer => some answer
  | _ => none

def Reply.answer? : Reply → Option Answer
  | call progress => progress.answer?
  | ended ending => ending.answer?
  | _ => none

/-- The end of a computation. -/
structure Closing where
  key : CacheKey
  role : Role
  outcome : Outcome
  before : ResponseCache
  /-- The cache after it, when nobody who waits has gone on yet. -/
  after : ResponseCache
  /-- Whether there is a caller who has not left. -/
  attended : Bool
  heard : Option Answer

namespace Session

/-- The session in the midst of a poll, when the fetches `past` have been polled. -/
def midPoll (s : Session) (past : List WaitingFetch) : Session := (pollAll past { s with waiting := [] }).2

/-- The ends of computations in a step. One that is not held open ends in the
cache in which it would be open if it were. -/
inductive Closes (s : Session) : Step → Closing → Prop
  | finish (id : CallId) (settled : Bool) (job : OpenComputation) (found : s.running.find? (·.id = id) = some job) :
    Closes s ⟨.finish id, settled⟩ {
      key := job.key
      role := job.purpose.role
      outcome := job.compute job.key.params
      before := s.cache
      after := (s.perform (.finish id)).2.cache
      attended := !job.abandoned
      heard := (s.perform (.finish id)).1.answer? }
  | fetch (id : CallId) (params : Params) (compute : Compute) (settled : Bool) (role : Role)
    (held : (s.perform (.fetch id params compute true)).1 = .call (.computing role)) :
    Closes s ⟨.fetch id params compute false, settled⟩ {
      key := .ofParams params
      role := role
      outcome := compute params
      before := (s.perform (.fetch id params compute true)).2.cache
      after := (s.perform (.fetch id params compute false)).2.cache
      attended := true
      heard := (s.perform (.fetch id params compute false)).1.answer? }
  | refresh (id : CallId) (params : Params) (compute : Compute) (settled : Bool) (role : Role)
    (held : (s.perform (.refresh id params compute true)).1 = .call (.computing role)) :
    Closes s ⟨.refresh id params compute false, settled⟩ {
      key := .ofParams params
      role := role
      outcome := compute params
      before := (s.perform (.refresh id params compute true)).2.cache
      after := (s.perform (.refresh id params compute false)).2.cache
      attended := true
      heard := (s.perform (.refresh id params compute false)).1.answer? }
  /-- A round of the worker, which nobody hears of. -/
  | round (compute : Compute) (settled : Bool) (n : Nat) (key : CacheKey) (claimed : ResponseCache)
    (round : n < s.cache.queue.line.length)
    (due : (ResponseCache.workRounds s.now compute n s.cache).nextRefresh.1 = some key)
    (free : (ResponseCache.workRounds s.now compute n s.cache).nextRefresh.2.claim? key = some claimed) :
    Closes s ⟨.work compute, settled⟩ {
      key := key
      role := .owner
      outcome := compute key.params
      before := claimed.start
      after := (ResponseCache.workRounds s.now compute n s.cache).workOne s.now compute
      attended := false
      heard := none }
  /-- A fetch that has waited computes on its own. -/
  | resumed (a : Action) (past rest : List WaitingFetch) (f : WaitingFetch)
    (waiting : (s.perform a).2.waiting = past ++ f :: rest)
    (released : f.waiter.poll ((s.perform a).2.midPoll past).cache.gate = none) (atOnce : f.hold = false)
    (held : (((s.perform a).2.midPoll past).resume { f with hold := true }).1 = .computing .alone) :
    Closes s ⟨a, true⟩ {
      key := f.key
      role := .alone
      outcome := f.compute f.key.params
      before := (((s.perform a).2.midPoll past).resume { f with hold := true }).2.cache
      after := (((s.perform a).2.midPoll past).resume f).2.cache
      attended := true
      heard := (((s.perform a).2.midPoll past).resume f).1.answer? }

end Session

namespace Closing

/-- The caller, if there is one who has not left, hears of the error. -/
def Hears (e : Closing) (error : ComputeError) : Prop := e.heard = if e.attended then some (.failed error) else none

/-- What is heard of a failure: the error that the compute function returned,
and of a crash that the computation was aborted. -/
structure Told (e : Closing) : Prop where
  failure : ∀ error, e.outcome = .failure error → e.Hears error
  crash : e.outcome = .crash → e.Hears (.aborted "the computation crashed")

/-- All that the end of a computation does to the cache, and what is heard of a failure. -/
structure Concluded (e : Closing) : Prop where
  finish : ∃ now, e.after = e.before.finish now e.key e.role e.outcome
  owns : e.role = .owner → e.key.text ∈ e.before.gate.inFlight
  heard : e.Told

/-- The end of an owner's computation of which nothing is left: its key is free,
and an error is counted. -/
structure Traceless (e : Closing) : Prop where
  stores : e.after.stores = e.before.stores
  queue : e.after.queue = e.before.queue
  counters : e.after.counters =
    { e.before.counters with computeFailures := e.before.counters.computeFailures + e.outcome.isFailure.toNat }
  registered : e.key.text ∈ e.before.gate.inFlight
  released : e.after.gate.inFlight = e.before.gate.inFlight.filter (· ≠ e.key.text)
  free : ∃ c, e.after.claim? e.key = some c
  heard : e.Told

/-- The end of a computation that nobody else takes notice of. -/
structure Unnoticed (e : Closing) : Prop where
  stores : e.after.stores = e.before.stores
  queue : e.after.queue = e.before.queue
  gate : e.after.gate = e.before.gate

variable {e : Closing}

/-- What the caller of a computation gets is what it is told. -/
theorem Told.of_answer (h : ∀ error, e.outcome.answer = .error error → e.Hears error) : e.Told where
  failure error houtcome := h error (by rw [houtcome]; rfl)
  crash houtcome := h _ (by rw [houtcome]; rfl)

theorem Concluded.traceless (h : e.Concluded) (hrole : e.role = .owner) (hfailed : ∀ body, e.outcome ≠ .body body) :
    e.Traceless := by
  obtain ⟨⟨now, hfinish⟩, howns, hheard⟩ := h
  have hgate : e.after.gate = e.before.gate.release e.key.text := by
    rw [hfinish, ResponseCache.gate_finish, hrole]
  refine ⟨?_, ?_, ?_, howns hrole, ?_, ?_, hheard⟩
  · rw [hfinish, ResponseCache.stores_finish, Role.writes_of_fails hfailed]
    rfl
  · rw [hfinish, ResponseCache.queue_finish]
  · rw [hfinish, ResponseCache.counters_finish]
  · rw [hgate]
    rfl
  · have hfree : e.after.gate.isInFlight e.key.text = false := by
      rw [← Bool.not_eq_true, Gate.isInFlight_iff, hgate]
      simp [Gate.release]
    rw [ResponseCache.claim?_eq, hfree]
    exact ⟨_, rfl⟩

theorem Concluded.unnoticed (h : e.Concluded) (hrole : e.role = .alone) : e.Unnoticed := by
  obtain ⟨⟨now, hfinish⟩, -, -⟩ := h
  refine ⟨?_, ?_, ?_⟩
  · rw [hfinish, ResponseCache.stores_finish, hrole]
    cases e.outcome <;> rfl
  · rw [hfinish, ResponseCache.queue_finish]
  · rw [hfinish, ResponseCache.gate_finish, hrole]

end Closing

theorem Purpose.answer_of_error {outcome : Outcome} {error : ComputeError} (h : outcome.answer = .error error)
    (p : Purpose) : p.answer outcome = .failed error := by
  unfold Purpose.answer
  rw [h]

namespace Session

variable {s : Session}

/-! ## Held open, and ended at once -/

/-- A call whose computation is held open, and the same call where it ends at once. -/
structure Ends (now : Instant) (key : CacheKey) (role : Role) (outcome : Outcome) (held atOnce : Progress × Session) :
    Prop where
  finish : atOnce.2.cache = held.2.cache.finish now key role outcome
  owns : role = .owner → key.text ∈ held.2.cache.gate.inFlight
  heard : ∀ error, outcome.answer = .error error → atOnce.1.answer? = some (.failed error)

theorem launch_ends (s : Session) (c : ResponseCache) (job : OpenComputation)
    (howns : job.purpose.role = .owner → job.key.text ∈ c.gate.inFlight) :
    Ends s.now job.key job.purpose.role (job.compute job.key.params)
      (({ s with cache := c } : Session).launch job true) (({ s with cache := c } : Session).launch job false) where
  finish := rfl
  owns := howns
  heard _ herror := congrArg some (Purpose.answer_of_error herror job.purpose)

theorem fetch_ends {id : CallId} {key : CacheKey} {compute : Compute} {role : Role}
    (held : (s.fetch id key compute true).1 = .computing role) :
    Ends s.now key role (compute key.params) (s.fetch id key compute true) (s.fetch id key compute false) := by
  cases hl : (s.cache.lookup s.now key).1 with
  | served body =>
    rw [fetch_served _ _ _ _ _ hl] at held
    cases held
  | bypass =>
    rw [fetch_bypass _ _ _ _ _ hl] at held ⊢
    rw [fetch_bypass _ _ _ _ _ hl]
    cases held
    exact launch_ends s _ ⟨id, key, compute, .alone, false⟩ fun h => by cases h
  | missing =>
    cases hk : s.cache.gate.isInFlight key.text with
    | true =>
      rw [fetch_waits _ _ _ _ _ hl hk] at held
      cases held
    | false =>
      rw [fetch_owner _ _ _ _ _ hl hk] at held ⊢
      rw [fetch_owner _ _ _ _ _ hl hk]
      cases held
      exact launch_ends s _ ⟨id, key, compute, .fetch, false⟩
        fun _ => List.mem_append_right _ (List.mem_singleton.2 rfl)

theorem refresh_ends {id : CallId} {key : CacheKey} {compute : Compute} {role : Role}
    (held : (s.refresh id key compute true).1 = .computing role) :
    Ends s.now key role (compute key.params) (s.refresh id key compute true) (s.refresh id key compute false) := by
  unfold Session.refresh at held ⊢
  rw [ResponseCache.claim?_eq] at held ⊢
  cases hk : s.cache.gate.isInFlight key.text with
  | true =>
    rw [hk] at held
    cases held
  | false =>
    rw [hk] at held
    cases held
    exact launch_ends s _ ⟨id, key, compute, .refresh, false⟩
      fun _ => List.mem_append_right _ (List.mem_singleton.2 rfl)

theorem resume_ends {f : WaitingFetch} (held : (s.resume { f with hold := true }).1 = .computing .alone)
    (hold : f.hold = false) :
    Ends s.now f.key .alone (f.compute f.key.params) (s.resume { f with hold := true }) (s.resume f) := by
  unfold Session.resume at held ⊢
  rw [hold]
  simp only at held ⊢
  generalize s.cache.lookup s.now f.key = looked at held ⊢
  obtain ⟨found, c⟩ := looked
  cases found with
  | served body => cases held
  | bypass | missing => exact launch_ends s c ⟨f.id, f.key, f.compute, .alone, false⟩ fun h => by cases h

/-! ## Every end -/

/-- A computation ends as `finish` says, whichever way it comes to its end. -/
theorem Closes.concluded {t : Step} {e : Closing} (h : s.Closes t e) (hs : s.Owned) : e.Concluded := by
  cases h with
  | finish id settled job found =>
    have hfinish := finish_found (s := s) id found
    refine ⟨⟨s.now, ?_⟩, fun howner => ?_, .of_answer fun error herror => ?_⟩
    · show (s.finish id).2.cache = _
      rw [hfinish]
    · -- Its key is in flight because it is open.
      show job.key.text ∈ s.cache.gate.inFlight
      rw [hs.registry, owned, List.mem_map]
      exact ⟨job, List.mem_filter.2 ⟨List.mem_of_find?_eq_some found, decide_eq_true howner⟩, rfl⟩
    · show (s.finish id).1.answer? = _
      rw [hfinish]
      cases job.abandoned with
      | true => rfl
      | false => exact congrArg some (Purpose.answer_of_error herror job.purpose)
  | fetch id params compute settled role held =>
    obtain ⟨hfinish, howns, hheard⟩ := fetch_ends (Reply.call.inj held)
    rw [CacheKey.params_ofParams] at hfinish hheard
    exact ⟨⟨s.now, hfinish⟩, howns, .of_answer hheard⟩
  | refresh id params compute settled role held =>
    obtain ⟨hfinish, howns, hheard⟩ := refresh_ends (Reply.call.inj held)
    rw [CacheKey.params_ofParams] at hfinish hheard
    exact ⟨⟨s.now, hfinish⟩, howns, .of_answer hheard⟩
  | round compute settled n key claimed round due free =>
    obtain ⟨hfinish, hregistered⟩ := ResponseCache.workOne_of_claimed s.now compute due free
    exact ⟨⟨s.now, hfinish⟩, fun _ => hregistered, .of_answer fun _ _ => rfl⟩
  | resumed a past rest f waiting released atOnce held =>
    obtain ⟨hfinish, -, hheard⟩ := resume_ends held atOnce
    exact ⟨⟨_, hfinish⟩, fun howner => (by cases howner), .of_answer hheard⟩

/-! ## No other ends -/

/-- A call of a compute function: its computation is left open, or it ends. -/
def Resolved (s : Session) (t : Step) (call : CacheKey × Compute) : Prop :=
  (∃ job ∈ (s.next t).running, job.key = call.1 ∧ job.compute = call.2) ∨
    ∃ e, s.Closes t e ∧ e.key = call.1 ∧ e.outcome = call.2 call.1.params

theorem resolved_of_opened {a : Action} {job : OpenComputation} {settled : Bool} {call : CacheKey × Compute}
    (hopens : (s.perform a).2.running = s.running ++ [job]) (hkey : job.key = call.1)
    (hcompute : job.compute = call.2) : s.Resolved ⟨a, settled⟩ call := by
  have hjob : job ∈ (s.perform a).2.running := by
    rw [hopens]
    exact List.mem_append_right _ (List.mem_singleton.2 rfl)
  refine .inl ⟨job, ?_, hkey, hcompute⟩
  rw [next_eq]
  cases settled with
  | true =>
    show job ∈ (s.perform a).2.settle.2.running
    rw [running_settle]
    exact List.mem_append_left _ hjob
  | false => exact hjob

theorem resolved_fetch {id : CallId} {params : Params} {compute : Compute} {hold settled : Bool}
    {call : CacheKey × Compute} (h : call ∈ s.calls (.fetch id params compute hold)) :
    s.Resolved ⟨.fetch id params compute hold, settled⟩ call := by
  have hfetch := s.fetch_fst id (.ofParams params) compute true
  have hopens := s.running_perform (.fetch id params compute hold)
  simp only [calls] at h
  simp only [fetchOpens] at hopens
  cases henter : (s.cache.enter s.now (.ofParams params)).1 with
  | served | waits =>
    rw [henter] at h
    cases h
  | owner | alone =>
    rw [henter] at h hfetch hopens
    cases List.mem_singleton.1 h
    cases hold with
    | true => exact resolved_of_opened hopens rfl rfl
    | false =>
      refine .inr ⟨_, .fetch id params compute settled _ (congrArg Reply.call hfetch), rfl, ?_⟩
      rw [CacheKey.params_ofParams]

theorem resolved_refresh {id : CallId} {params : Params} {compute : Compute} {hold settled : Bool}
    {call : CacheKey × Compute} (h : call ∈ s.calls (.refresh id params compute hold)) :
    s.Resolved ⟨.refresh id params compute hold, settled⟩ call := by
  have hrefresh := s.refresh_fst id (.ofParams params) compute true
  have hopens := s.running_perform (.refresh id params compute hold)
  simp only [calls] at h
  cases hk : s.cache.gate.isInFlight (CacheKey.ofParams params).text with
  | true =>
    rw [hk] at h
    cases h
  | false =>
    rw [hk] at h hrefresh
    cases List.mem_singleton.1 h
    cases hold with
    | true =>
      simp only [hk] at hopens
      exact resolved_of_opened hopens rfl rfl
    | false =>
      refine .inr ⟨_, .refresh id params compute settled _ (congrArg Reply.call hrefresh), rfl, ?_⟩
      rw [CacheKey.params_ofParams]

theorem resolved_work {compute : Compute} {settled : Bool} {call : CacheKey × Compute}
    (h : call ∈ s.calls (.work compute)) : s.Resolved ⟨.work compute, settled⟩ call := by
  obtain ⟨n, hn, hround, hcompute⟩ := ResponseCache.mem_roundsCalls.1 h
  obtain ⟨due, claimed, free⟩ := ResponseCache.claimed_of_roundKey hround
  exact .inr ⟨_, .round compute settled n call.1 claimed hn due free, rfl, by rw [hcompute]⟩

/-- A fetch goes on in the midst of a poll as it would at its beginning. -/
theorem resolved_called {a : Action} {f : WaitingFetch} {call : CacheKey × Compute}
    (hready : f ∈ (s.perform a).2.ready) (h : call ∈ (s.perform a).2.called f) : s.Resolved ⟨a, true⟩ call := by
  obtain ⟨hwaits, hreleased⟩ := List.mem_filter.1 hready
  obtain ⟨past, rest, hsplit⟩ := List.append_of_mem hwaits
  have hmid : (s.perform a).2.Alike ((s.perform a).2.midPoll past) :=
    (pollAll_polled past ((Alike.refl _).waiting [])).alike
  unfold called at h
  cases hl : ((s.perform a).2.cache.lookup (s.perform a).2.now f.key).1 with
  | served body =>
    rw [hl] at h
    cases h
  | bypass | missing =>
    rw [hl] at h
    cases List.mem_singleton.1 h
    cases hhold : f.hold with
    | true =>
      have hopened : ⟨f.id, f.key, f.compute, .alone, false⟩ ∈ (s.perform a).2.opened f := by
        unfold opened
        rw [hl, hhold]
        exact .head _
      refine .inl ⟨⟨f.id, f.key, f.compute, .alone, false⟩, ?_, rfl, rfl⟩
      rw [next_eq]
      show _ ∈ (s.perform a).2.settle.2.running
      rw [running_settle]
      exact List.mem_append_right _ (List.mem_flatMap.2 ⟨f, hready, hopened⟩)
    | false =>
      refine .inr ⟨_, .resumed a past rest f hsplit ?_ hhold ?_, rfl, rfl⟩
      · rw [hmid.gate]
        exact Option.isNone_iff_eq_none.1 hreleased
      · rw [hmid.resume_fst, resume_fst, hl]
        rfl

/-- Every call of a compute function in a step is resolved. -/
theorem resolved_of_called {t : Step} {call : CacheKey × Compute} (h : call ∈ s.stepCalls t) : s.Resolved t call := by
  obtain ⟨a, settled⟩ := t
  rcases List.mem_append.1 h with haction | hpoll
  · cases a with
    | fetch => exact resolved_fetch haction
    | refresh => exact resolved_refresh haction
    | work => exact resolved_work haction
    | _ => cases haction
  · cases settled with
    | false => cases hpoll
    | true =>
      obtain ⟨f, hready, hcalled⟩ := List.mem_flatMap.1 hpoll
      exact resolved_called hready hcalled

/-- **Failures leave no trace.** In every state that a cache comes to, the end
of an owner's computation without a body leaves the stores and the queue as
they were, counts an error once and a crash not at all, and takes the key out
of the registry and no other; unless its caller has left, it hears the error, or
that the computation was aborted. The end of a computation on its own leaves the
stores, the queue and the registry as they were, whatever the outcome. These are
all the ends there are. -/
theorem failures_leave_no_trace {config : CacheConfig} {s₀ : Session} (h : Session.new config = .ok s₀)
    (run : List Step) (t : Step) :
    (∀ e, (s₀.after run).Closes t e →
      (e.role = .owner → (∀ body, e.outcome ≠ .body body) → e.Traceless) ∧
      (e.role = .alone → e.Unnoticed)) ∧
    ∀ call ∈ (s₀.after run).stepCalls t, (s₀.after run).Resolved t call := by
  refine ⟨fun e he => ?_, fun call hcall => resolved_of_called hcall⟩
  have hconcluded := he.concluded ((Owned.new h).after run)
  exact ⟨hconcluded.traceless, hconcluded.unnoticed⟩

/-- A computation that is held open crashes when its caller has left. -/
theorem failures_leave_no_trace_small :
    let s := small.after [⟨.fetch "a" default (fun _ => .crash) true, true⟩, ⟨.cancel "a", true⟩]
    Session.new .small = .ok .small ∧
      s.cache.gate.inFlight = [(CacheKey.ofParams default).text] ∧
      (s.perform (.finish "a")).2.cache.stores = s.cache.stores ∧
      (s.perform (.finish "a")).2.cache.gate.inFlight = [] ∧
      (s.perform (.finish "a")).2.cache.counters.computeFailures = 0 := by
  intro s
  obtain ⟨hends, -⟩ := failures_leave_no_trace new_small
    [⟨.fetch "a" default (fun _ => .crash) true, true⟩, ⟨.cancel "a", true⟩] ⟨.finish "a", true⟩
  obtain ⟨htraceless, -⟩ := hends _ (.finish "a" true _ rfl)
  obtain ⟨hstores, -, hcounters, -, hreleased, -, -⟩ := htraceless rfl nofun
  exact ⟨new_small, rfl, hstores, hreleased.trans rfl, (congrArg (·.computeFailures) hcounters).trans rfl⟩

end Session

end FizzService
