/-
What each action on a cache in use does. `accesses` lists the accesses to the
stores that it makes, `calls` the compute functions that it calls. What it
does to the gate, the open computations and the waiting fetches is one of the
six moves of `Moves`: every invariant of theirs is a case analysis over those.
`perform_performed` says that this is all.

`put_mem_accesses`: the bodies that an action puts on record are those that a
`set` or an owner's computation has just written.
-/
import FizzService.Proofs.Cache.Settle

namespace FizzService

/-- The parameters that an action names. -/
def Action.params? : Action → Option Params
  | .fetch _ params _ _ | .refresh _ params _ _ | .get params | .set params _
  | .invalidate params | .negativeFlag params | .isQueued params => some params
  | _ => none

namespace Session

variable (s : Session)

/-- What the sweep does to the stores when time moves on. -/
def sweeps (time : Duration) : List Access :=
  match s.sweep with
  | some sweep => if sweep.due ≤ s.now + time then [.purge] else []
  | none => []

/-- The accesses to the stores that an action makes, in order. -/
def accesses : Action → List Access
  | .fetch _ params compute hold =>
    .find (.ofParams params) ::
      match (s.cache.enter s.now (.ofParams params)).1 with
      | .owner => if hold then [] else Role.owner.writes (.ofParams params) (compute params)
      | _ => []
  | .refresh _ params compute hold =>
    if hold || s.cache.gate.isInFlight (CacheKey.ofParams params).text then []
    else Role.owner.writes (.ofParams params) (compute params)
  | .finish id =>
    match s.running.find? (·.id = id) with
    | some job => job.purpose.role.writes job.key (job.compute job.key.params)
    | none => []
  | .get params => [.get (.ofParams params)]
  | .set params body => [.put (.ofParams params) body]
  | .invalidate params => [.remove (.ofParams params)]
  | .purge => [.purge]
  | .negativeFlag params => [.flag (.ofParams params)]
  | .advance time => s.sweeps time
  | .drain time => if s.cache.gate.isIdle then [] else s.sweeps time
  | .work compute => ResponseCache.roundsWrites s.now compute s.cache.queue.line.length s.cache
  | _ => []

/-- The compute functions that an action calls, in order, each with its key. -/
def calls : Action → List (CacheKey × Compute)
  | .fetch _ params compute _ =>
    match (s.cache.enter s.now (.ofParams params)).1 with
    | .owner | .alone => [(.ofParams params, compute)]
    | _ => []
  | .refresh _ params compute _ =>
    if s.cache.gate.isInFlight (CacheKey.ofParams params).text then [] else [(.ofParams params, compute)]
  | .work compute => ResponseCache.roundsCalls s.now compute s.cache.queue.line.length s.cache
  | _ => []

theorem launch_fst (job : OpenComputation) (hold : Bool) :
    (s.launch job hold).1 = if hold then .computing job.purpose.role
      else .done (job.purpose.answer (job.compute job.key.params)) := by
  cases hold <;> rfl

/-- How far a fetch comes. -/
theorem fetch_fst (s : Session) (id : CallId) (key : CacheKey) (compute : Compute) (hold : Bool) :
    (s.fetch id key compute hold).1 =
      match (s.cache.enter s.now key).1 with
      | .served body => .done (.body body)
      | .alone => if hold then .computing .alone else .done (Purpose.alone.answer (compute key.params))
      | .owner => if hold then .computing .owner else .done (Purpose.fetch.answer (compute key.params))
      | .waits => .waiting := by
  unfold fetch
  rcases s.cache.enter s.now key with ⟨admission, cache⟩
  cases admission with
  | served body => rfl
  | alone | owner => exact launch_fst ..
  | waits => rfl

theorem refresh_fst (s : Session) (id : CallId) (key : CacheKey) (compute : Compute) (hold : Bool) :
    (s.refresh id key compute hold).1 =
      if s.cache.gate.isInFlight key.text then .done (.refreshed false)
      else if hold then .computing .owner else .done (Purpose.refresh.answer (compute key.params)) := by
  unfold refresh
  rw [ResponseCache.claim?_eq]
  cases s.cache.gate.isInFlight key.text with
  | true => rfl
  | false => exact launch_fst ..

/-! ## The ways of a fetch -/

variable (id : CallId) (key : CacheKey) (compute : Compute) (hold : Bool)

theorem fetch_served {body : ByteArray} (h : (s.cache.lookup s.now key).1 = .served body) :
    s.fetch id key compute hold =
      (.done (.body body), { s with cache := (s.cache.lookup s.now key).2 }) := by
  simp only [fetch, ResponseCache.enter_eq, h]

theorem fetch_bypass (h : (s.cache.lookup s.now key).1 = .bypass) :
    s.fetch id key compute hold =
      { s with cache := (s.cache.lookup s.now key).2 }.launch ⟨id, key, compute, .alone, false⟩ hold := by
  simp only [fetch, ResponseCache.enter_eq, h]

theorem fetch_owner (h : (s.cache.lookup s.now key).1 = .missing)
    (hk : s.cache.gate.isInFlight key.text = false) :
    s.fetch id key compute hold =
      { s with cache := { (s.cache.lookup s.now key).2.count .miss with
          gate := ⟨s.cache.gate.inFlight ++ [key.text], s.cache.gate.broadcasts⟩ } }.launch
        ⟨id, key, compute, .fetch, false⟩ hold := by
  simp only [fetch, ResponseCache.enter_eq, h, hk, Bool.false_eq_true, if_false]

theorem fetch_waits (h : (s.cache.lookup s.now key).1 = .missing)
    (hk : s.cache.gate.isInFlight key.text = true) :
    s.fetch id key compute hold =
      (.waiting, { s with
        cache := ((s.cache.lookup s.now key).2.count .miss).count .coalescedWait
        waiting := s.waiting ++
          [⟨id, key, compute, hold, ⟨.released key.text, some s.cache.gate.broadcasts⟩⟩] }) := by
  have hg : (((s.cache.lookup s.now key).2.count .miss).count .coalescedWait).gate = s.cache.gate := by
    rw [ResponseCache.gate_count, ResponseCache.gate_count, ResponseCache.gate_lookup]
  simp only [fetch, ResponseCache.enter_eq, h, hk, if_true, hg]

theorem finish_found {job : OpenComputation} (found : s.running.find? (·.id = id) = some job) :
    s.finish id = (if job.abandoned then .abandoned
        else .answered (job.purpose.answer (job.compute job.key.params)),
      { s with
        running := s.running.eraseP (·.id = id)
        cache := s.cache.finish s.now job.key job.purpose.role (job.compute job.key.params) }) := by
  simp only [finish, found, conclude]

/-! ## Moves -/

/-- What an action does to the gate, the open computations and the waiting
fetches. -/
inductive Moves (s t : Session) : Action → Prop
  /-- Nothing, in the end; keys may have been taken and given back. -/
  | passes (a : Action) (inFlight : t.cache.gate.inFlight = s.cache.gate.inFlight)
      (later : s.cache.gate.Later t.cache.gate) (running : t.running = s.running)
      (waiting : t.waiting = s.waiting) : Moves s t a
  /-- A computation is held open. -/
  | opens (a : Action) (job : OpenComputation) (named : a.params? = some job.key.params)
      (free : job.purpose.role = .owner → job.key.text ∉ s.cache.gate.inFlight)
      (gate : t.cache.gate = match job.purpose.role with
        | .owner => ⟨s.cache.gate.inFlight ++ [job.key.text], s.cache.gate.broadcasts⟩
        | .alone => s.cache.gate)
      (running : t.running = s.running ++ [job]) (waiting : t.waiting = s.waiting) : Moves s t a
  /-- A fetch waits for the owner of its key. -/
  | waits (a : Action) (f : WaitingFetch) (named : a.params? = some f.key.params)
      (taken : f.key.text ∈ s.cache.gate.inFlight)
      (awaits : f.waiter = ⟨.released f.key.text, some s.cache.gate.broadcasts⟩)
      (gate : t.cache.gate = s.cache.gate) (running : t.running = s.running)
      (waiting : t.waiting = s.waiting ++ [f]) : Moves s t a
  /-- An open computation ends. -/
  | closes (id : CallId) (job : OpenComputation) (found : s.running.find? (·.id = id) = some job)
      (gate : t.cache.gate = match job.purpose.role with
        | .owner => s.cache.gate.release job.key.text
        | .alone => s.cache.gate)
      (running : t.running = s.running.eraseP (·.id = id)) (waiting : t.waiting = s.waiting) :
      Moves s t (.finish id)
  /-- A waiting fetch is given up. -/
  | leaves (id : CallId) (gate : t.cache.gate = s.cache.gate) (running : t.running = s.running)
      (waiting : t.waiting = s.waiting.filter (·.id ≠ id)) : Moves s t (.cancel id)
  /-- The caller of an open computation leaves. -/
  | abandons (id : CallId) (gate : t.cache.gate = s.cache.gate)
      (running : t.running = s.running.map fun job =>
        if job.id = id then { job with abandoned := true } else job)
      (waiting : t.waiting = s.waiting) : Moves s t (.cancel id)

/-- What an action makes of a session. -/
structure Performed (s : Session) (a : Action) (t : Session) : Prop where
  config : t.cache.config = s.cache.config
  stores : t.cache.stores = s.cache.stores.replay s.cache.config t.now (s.accesses a)
  computations : t.cache.counters.computations = s.cache.counters.computations + (s.calls a).length
  moves : Moves s t a

variable {s id key compute hold}

/-- An action that only touches the stores. -/
theorem Performed.of_stores {a : Action} {t : Session} (hgate : t.cache.gate = s.cache.gate)
    (hconfig : t.cache.config = s.cache.config) (hrunning : t.running = s.running)
    (hwaiting : t.waiting = s.waiting)
    (hcomputations : t.cache.counters.computations = s.cache.counters.computations)
    (hcalls : s.calls a = [])
    (hstores : t.cache.stores = s.cache.stores.replay s.cache.config t.now (s.accesses a)) :
    Performed s a t where
  config := hconfig
  stores := hstores
  computations := by rw [hcomputations, hcalls]; rfl
  moves := .passes a (congrArg _ hgate) (hgate ▸ .refl _) hrunning hwaiting

/-- A computation that is launched after some accesses, with its key taken
if it is to be an owner. -/
theorem Performed.launch {a : Action} {c : ResponseCache} {job : OpenComputation} (before : List Access)
    (hconfig : c.config = s.cache.config)
    (hstores : c.stores = s.cache.stores.replay s.cache.config s.now before)
    (hcomputations : c.counters.computations = s.cache.counters.computations)
    (hgate : c.gate = match job.purpose.role with
      | .owner => ⟨s.cache.gate.inFlight ++ [job.key.text], s.cache.gate.broadcasts⟩
      | .alone => s.cache.gate)
    (hfree : job.purpose.role = .owner → job.key.text ∉ s.cache.gate.inFlight)
    (hnamed : a.params? = some job.key.params) (hcalls : (s.calls a).length = 1)
    (haccesses : s.accesses a = before ++ if hold then [] else
      job.purpose.role.writes job.key (job.compute job.key.params)) :
    Performed s a (({ s with cache := c } : Session).launch job hold).2 := by
  cases hold with
  | true =>
    simp only [Session.launch, if_true]
    refine ⟨hconfig, ?_, ?_, .opens a job hnamed hfree hgate rfl rfl⟩
    · rw [haccesses, if_pos rfl, List.append_nil]
      exact hstores
    · rw [hcalls, ← hcomputations]
      rfl
  | false =>
    simp only [Session.launch, conclude, Bool.false_eq_true, if_false]
    refine ⟨?_, ?_, ?_, ?_⟩
    · rw [ResponseCache.config_finish]
      exact hconfig
    · rw [ResponseCache.stores_finish, haccesses, if_neg Bool.false_ne_true]
      change c.stores.replay c.config s.now _ = _
      rw [hstores, hconfig]
      exact (List.foldl_append ..).symm
    · rw [ResponseCache.computations_finish, hcalls, ← hcomputations]
      rfl
    · -- An owner that ends at once gives its key back.
      have hg : (c.start.finish s.now job.key job.purpose.role (job.compute job.key.params)).gate =
          match job.purpose.role with
          | .owner => c.gate.release job.key.text
          | .alone => c.gate := ResponseCache.gate_finish ..
      refine .passes a ?_ ?_ rfl rfl
      · rw [hg, hgate]
        cases hr : job.purpose.role with
        | owner => exact Gate.inFlight_release_acquired (hfree hr)
        | alone => rfl
      · rw [hg, hgate]
        cases job.purpose.role with
        | owner => exact (Gate.later_acquired ..).trans (Gate.later_release ..)
        | alone => exact .refl _

theorem fetch_performed (s : Session) (id : CallId) (params : Params) (compute : Compute) (hold : Bool) :
    Performed s (.fetch id params compute hold) (s.fetch id (.ofParams params) compute hold).2 := by
  have hconfig := s.cache.config_lookup s.now (.ofParams params)
  have hstores := s.cache.stores_lookup s.now (.ofParams params)
  have hgate := s.cache.gate_lookup s.now (.ofParams params)
  have hcomputations := s.cache.computations_lookup s.now (.ofParams params)
  have henter := s.cache.enter_eq s.now (.ofParams params)
  cases hl : (s.cache.lookup s.now (.ofParams params)).1 with
  | served body =>
    rw [hl] at henter
    rw [fetch_served _ _ _ _ _ hl]
    exact .of_stores hgate hconfig rfl rfl hcomputations (by simp [calls, henter])
      (by simp only [accesses, henter]; exact hstores)
  | bypass =>
    rw [hl] at henter
    rw [fetch_bypass _ _ _ _ _ hl]
    exact .launch [.find (.ofParams params)] hconfig hstores hcomputations hgate (fun h => by cases h) rfl
      (by simp [calls, henter]) (by simp only [accesses, henter]; cases hold <;> rfl)
  | missing =>
    rw [hl] at henter
    cases hk : s.cache.gate.isInFlight (CacheKey.ofParams params).text with
    | false =>
      have hfree : (CacheKey.ofParams params).text ∉ s.cache.gate.inFlight := by
        simp [← Gate.isInFlight_iff, hk]
      simp only [hk, Bool.false_eq_true, if_false] at henter
      rw [fetch_owner _ _ _ _ _ hl hk]
      generalize (s.cache.lookup s.now (.ofParams params)).2 = c
        at hconfig hstores hgate hcomputations henter ⊢
      exact .launch [.find (.ofParams params)] hconfig hstores hcomputations rfl (fun _ => hfree) rfl
        (by simp [calls, henter]) (by simp only [accesses, henter]; cases hold <;> rfl)
    | true =>
      simp only [hk, if_true] at henter
      rw [fetch_waits _ _ _ _ _ hl hk]
      generalize (s.cache.lookup s.now (.ofParams params)).2 = c
        at hconfig hstores hgate hcomputations henter ⊢
      exact ⟨hconfig, by simp only [accesses, henter]; exact hstores,
        by simp only [calls, henter]; exact hcomputations,
        .waits _ ⟨id, .ofParams params, compute, hold, ⟨.released _, some s.cache.gate.broadcasts⟩⟩ rfl
          (Gate.isInFlight_iff.1 hk) rfl hgate rfl rfl⟩

theorem refresh_performed (s : Session) (id : CallId) (params : Params) (compute : Compute) (hold : Bool) :
    Performed s (.refresh id params compute hold) (s.refresh id (.ofParams params) compute hold).2 := by
  unfold Session.refresh
  rw [ResponseCache.claim?_eq]
  cases hk : s.cache.gate.isInFlight (CacheKey.ofParams params).text with
  | true =>
    exact .of_stores rfl rfl rfl rfl rfl (by simp [calls, hk]) (by simp [accesses, hk]; rfl)
  | false =>
    have hfree : (CacheKey.ofParams params).text ∉ s.cache.gate.inFlight := by
      simp [← Gate.isInFlight_iff, hk]
    exact .launch [] rfl rfl rfl rfl (fun _ => hfree) rfl (by simp [calls, hk])
      (by simp only [accesses, hk, Bool.or_false]; rfl)

theorem finish_performed (s : Session) (id : CallId) : Performed s (.finish id) (s.finish id).2 := by
  unfold Session.finish
  cases hf : s.running.find? (·.id = id) with
  | none => exact .of_stores rfl rfl rfl rfl rfl rfl (by simp only [accesses, hf]; rfl)
  | some job =>
    simp only [conclude]
    exact ⟨ResponseCache.config_finish ..,
      by simp only [accesses, hf]; exact ResponseCache.stores_finish ..,
      ResponseCache.computations_finish .., .closes id job hf (ResponseCache.gate_finish ..) rfl rfl⟩

theorem cancel_performed (s : Session) (id : CallId) : Performed s (.cancel id) (s.cancel id).2 := by
  unfold Session.cancel
  split
  · exact ⟨rfl, rfl, rfl, .leaves id rfl rfl rfl⟩
  · exact ⟨rfl, rfl, rfl, .abandons id rfl rfl rfl⟩

theorem advance_performed {a : Action} {time : Duration} (haccesses : s.accesses a = s.sweeps time)
    (hcalls : s.calls a = []) : Performed s a (s.advance time) := by
  unfold advance sweepIfDue
  unfold sweeps at haccesses
  cases hs : s.sweep with
  | none =>
    rw [hs] at haccesses
    exact .of_stores rfl rfl rfl rfl rfl hcalls (by rw [haccesses]; rfl)
  | some sweep =>
    rw [hs] at haccesses
    simp only at haccesses ⊢
    split
    · rename_i hdue
      rw [if_pos hdue] at haccesses
      exact .of_stores rfl rfl rfl rfl rfl hcalls (by rw [haccesses]; rfl)
    · rename_i hdue
      rw [if_neg hdue] at haccesses
      exact .of_stores rfl rfl rfl rfl rfl hcalls (by rw [haccesses]; rfl)

theorem work_performed (s : Session) (compute : Compute) :
    Performed s (.work compute) { s with cache := s.cache.work s.now compute } where
  config := ResponseCache.config_workRounds ..
  stores := ResponseCache.stores_workRounds ..
  computations := ResponseCache.computations_workRounds ..
  moves := .passes _ (ResponseCache.gate_workRounds ..).1 (ResponseCache.gate_workRounds ..).2 rfl rfl

/-- **What each action does**, to the stores, to the count of the computations
and to who owns, computes and waits. -/
theorem perform_performed (s : Session) (a : Action) : Performed s a (s.perform a).2 := by
  cases a with
  | fetch id params compute hold => exact fetch_performed s id params compute hold
  | refresh id params compute hold => exact refresh_performed s id params compute hold
  | finish id => exact finish_performed s id
  | cancel id => exact cancel_performed s id
  | advance time => exact advance_performed rfl rfl
  | drain time =>
    simp only [perform, drain]
    split
    · rename_i hidle
      exact .of_stores rfl rfl rfl rfl rfl rfl (by simp only [accesses, hidle, if_true]; rfl)
    · rename_i hidle
      exact advance_performed (by simp only [accesses, hidle]; rfl) rfl
  | work compute => exact work_performed s compute
  | get params | set params body | invalidate params | purge | negativeFlag params | isQueued params
  | hitRate | nextRefresh | startSweep timer interval | stopSweep =>
    exact .of_stores rfl rfl rfl rfl rfl rfl rfl

/-! ## Writes -/

/-- The moments at which an action has just written a body for some
parameters. The cache is then as told. -/
inductive Writes (s : Session) : Action → Params → ByteArray → ResponseCache → Prop
  | set (params : Params) (body : ByteArray) :
    Writes s (.set params body) params body (s.perform (.set params body)).2.cache
  /-- The end of an owner's computation, whether or not its caller is still
  there. -/
  | finish (id : CallId) (job : OpenComputation) (body : ByteArray)
    (found : s.running.find? (·.id = id) = some job) (owner : job.purpose.role = .owner)
    (ended : job.compute job.key.params = .body body) :
    Writes s (.finish id) job.key.params body (s.perform (.finish id)).2.cache
  | fetch (id : CallId) (params : Params) (compute : Compute) (body : ByteArray)
    (owner : (s.cache.enter s.now (.ofParams params)).1 = .owner) (ended : compute params = .body body) :
    Writes s (.fetch id params compute false) params body
      (s.perform (.fetch id params compute false)).2.cache
  | refresh (id : CallId) (params : Params) (compute : Compute) (body : ByteArray)
    (free : s.cache.gate.isInFlight (CacheKey.ofParams params).text = false)
    (ended : compute params = .body body) :
    Writes s (.refresh id params compute false) params body
      (s.perform (.refresh id params compute false)).2.cache
  /-- The end of a round of the worker. -/
  | work (compute : Compute) (n : Nat) (key : CacheKey) (body : ByteArray)
    (round : n < s.cache.queue.line.length)
    (taken : (ResponseCache.workRounds s.now compute n s.cache).roundKey? = some key)
    (ended : compute key.params = .body body) :
    Writes s (.work compute) key.params body
      ((ResponseCache.workRounds s.now compute n s.cache).workOne s.now compute)

theorem mem_writes {role : Role} {key key' : CacheKey} {outcome : Outcome} {body : ByteArray} :
    .put key body ∈ role.writes key' outcome ↔ role = .owner ∧ key' = key ∧ outcome = .body body := by
  cases role <;> cases outcome <;> simp [Role.writes, eq_comm]

theorem mem_roundsWrites {now : Instant} {key : CacheKey} {body : ByteArray} {n : Nat} {c : ResponseCache} :
    .put key body ∈ ResponseCache.roundsWrites now compute n c ↔
      ∃ m, m < n ∧ (ResponseCache.workRounds now compute m c).roundKey? = some key ∧
        compute key.params = .body body := by
  rw [ResponseCache.roundsWrites_eq, List.mem_flatMap]
  constructor
  · rintro ⟨⟨key', compute'⟩, hcall, hput⟩
    obtain ⟨m, hm, hround, rfl⟩ := ResponseCache.mem_roundsCalls.1 hcall
    obtain ⟨-, rfl, hended⟩ := mem_writes.1 hput
    exact ⟨m, hm, hround, hended⟩
  · rintro ⟨m, hm, hround, hended⟩
    exact ⟨(key, compute), ResponseCache.mem_roundsCalls.2 ⟨m, hm, hround, rfl⟩, mem_writes.2 ⟨rfl, rfl, hended⟩⟩

theorem mem_sweeps {time : Duration} {access : Access} (h : access ∈ s.sweeps time) : access = .purge := by
  unfold sweeps at h
  split at h
  · split at h
    · exact List.mem_singleton.1 h
    · cases h
  · cases h

/-- What is written is among the accesses. -/
theorem Writes.mem_accesses {a : Action} {params : Params} {body : ByteArray} {c : ResponseCache}
    (hw : s.Writes a params body c) : .put (.ofParams params) body ∈ s.accesses a := by
  cases hw with
  | set => exact .head _
  | finish id job body found owner ended =>
    simp only [accesses, found, CacheKey.ofParams_params]
    exact mem_writes.2 ⟨owner, rfl, ended⟩
  | fetch id params compute body owner ended =>
    simp only [accesses, owner]
    exact .tail _ (mem_writes.2 ⟨rfl, rfl, ended⟩)
  | refresh id params compute body free ended =>
    simp only [accesses, free, Bool.or_false, Bool.false_eq_true, if_false]
    exact mem_writes.2 ⟨rfl, rfl, ended⟩
  | work compute n key body round taken ended =>
    rw [CacheKey.ofParams_params]
    exact mem_roundsWrites.2 ⟨n, round, taken, ended⟩

/-- The bodies that an action puts on record are those that a `set` or an
owner's computation writes, and no others. -/
theorem put_mem_accesses {a : Action} {key : CacheKey} {body : ByteArray} :
    .put key body ∈ s.accesses a ↔ ∃ c, s.Writes a key.params body c := by
  refine ⟨fun h => ?_, fun ⟨c, hw⟩ => key.ofParams_params ▸ hw.mem_accesses⟩
  cases a with
  | fetch id params compute hold =>
    simp only [accesses, List.mem_cons, reduceCtorEq, false_or] at h
    split at h
    · rename_i howner
      cases hold with
      | true => simp at h
      | false =>
        obtain ⟨-, rfl, hended⟩ := mem_writes.1 h
        exact ⟨_, .fetch id params compute body howner hended⟩
    · cases h
  | refresh id params compute hold =>
    simp only [accesses] at h
    split at h
    · cases h
    · rename_i hfree
      simp only [Bool.or_eq_true, not_or, Bool.not_eq_true] at hfree
      obtain ⟨rfl, hfree⟩ := hfree
      obtain ⟨-, rfl, hended⟩ := mem_writes.1 h
      exact ⟨_, .refresh id params compute body hfree hended⟩
  | finish id =>
    simp only [accesses] at h
    split at h
    · rename_i job found
      obtain ⟨howner, rfl, hended⟩ := mem_writes.1 h
      exact ⟨_, .finish id job body found howner hended⟩
    · cases h
  | set params body' =>
    simp only [accesses, List.mem_singleton, Access.put.injEq] at h
    obtain ⟨rfl, rfl⟩ := h
    exact ⟨_, .set params body⟩
  | work compute =>
    obtain ⟨n, hn, htaken, hended⟩ := mem_roundsWrites.1 h
    exact ⟨_, .work compute n key body hn htaken hended⟩
  | advance time => cases mem_sweeps h
  | drain time =>
    simp only [accesses] at h
    split at h
    · cases h
    · cases mem_sweeps h
  | _ => simp [accesses] at h

end Session

end FizzService
