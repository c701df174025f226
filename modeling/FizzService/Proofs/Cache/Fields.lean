/-
What an action does to a session, field by field: to the clock and the sweep,
to the fetches that wait and to the computations that are open. A fetch or a
refresh adds at most its own call, an end or a cancellation takes calls of its
own name away, and every other action leaves the calls alone.
-/
import FizzService.Proofs.Cache.Perform

namespace FizzService

/-- The sweep at a later time: it goes to sleep anew if it was due. -/
def Sweep.later (now : Instant) (sweep : Sweep) : Sweep :=
  if sweep.due ≤ now then .asleep sweep.timer sweep.interval now else sweep

/-- A sweep does not wake at once, and it does not sleep for longer than its interval. -/
theorem Sweep.due_asleep (timer : Timer) {interval : Duration} (h : 0 < interval) (now : Instant) :
    now < (Sweep.asleep timer interval now).due ∧ (Sweep.asleep timer interval now).due ≤ now + interval :=
  ⟨timer.lt_wake now interval h, timer.wake_le now interval⟩

/-- Who gives a call up leaves its computation without a caller. -/
def OpenComputation.leftBy (id : CallId) (job : OpenComputation) : OpenComputation :=
  if job.id = id then { job with abandoned := true } else job

@[simp] theorem OpenComputation.key_leftBy (id : CallId) (job : OpenComputation) :
    (job.leftBy id).key = job.key := by
  unfold leftBy
  split <;> rfl

namespace Session

/-- The computation that a held fetch leaves open. -/
def fetchOpens (s : Session) (id : CallId) (key : CacheKey) (compute : Compute) (hold : Bool) : List OpenComputation :=
  match (s.cache.enter s.now key).1, hold with
  | .owner, true => [⟨id, key, compute, .fetch, false⟩]
  | .alone, true => [⟨id, key, compute, .alone, false⟩]
  | _, _ => []

/-- The fetch that waits for another. -/
def fetchWaits (s : Session) (id : CallId) (key : CacheKey) (compute : Compute) (hold : Bool) : List WaitingFetch :=
  match (s.cache.enter s.now key).1 with
  | .waits => [⟨id, key, compute, hold, ⟨.released key.text, some s.cache.gate.broadcasts⟩⟩]
  | _ => []

theorem launch_keeps (s : Session) (job : OpenComputation) (hold : Bool) :
    (s.launch job hold).2.now = s.now ∧ (s.launch job hold).2.sweep = s.sweep ∧
      (s.launch job hold).2.waiting = s.waiting ∧
      (s.launch job hold).2.running = s.running ++ if hold then [job] else [] := by
  cases hold with
  | true => exact ⟨rfl, rfl, rfl, rfl⟩
  | false => exact ⟨rfl, rfl, rfl, (List.append_nil _).symm⟩

theorem fetch_keeps (s : Session) (id : CallId) (key : CacheKey) (compute : Compute) (hold : Bool) :
    (s.fetch id key compute hold).2.now = s.now ∧ (s.fetch id key compute hold).2.sweep = s.sweep ∧
      (s.fetch id key compute hold).2.waiting = s.waiting ++ s.fetchWaits id key compute hold ∧
      (s.fetch id key compute hold).2.running = s.running ++ s.fetchOpens id key compute hold := by
  have hgate : (s.cache.enter s.now key).1 = .waits →
      (s.cache.enter s.now key).2.gate.broadcasts = s.cache.gate.broadcasts := by
    rw [ResponseCache.enter_eq]
    cases (s.cache.lookup s.now key).1 with
    | served | bypass => intro hwaits; cases hwaits
    | missing =>
      simp only
      split
      · exact fun _ => congrArg Gate.broadcasts (s.cache.gate_lookup s.now key)
      · intro hwaits
        cases hwaits
  unfold fetch fetchWaits fetchOpens
  generalize s.cache.enter s.now key = entered at hgate ⊢
  obtain ⟨admission, cache⟩ := entered
  cases admission with
  | served body => exact ⟨rfl, rfl, (List.append_nil _).symm, (List.append_nil _).symm⟩
  | alone | owner =>
    obtain ⟨hnow, hsweep, hwaiting, hrunning⟩ := launch_keeps { s with cache := cache } _ hold
    refine ⟨hnow, hsweep, hwaiting.trans (List.append_nil _).symm, hrunning.trans ?_⟩
    cases hold <;> rfl
  | waits =>
    simp only at hgate
    simp only [hgate, List.append_nil, and_self]

theorem refresh_keeps (s : Session) (id : CallId) (key : CacheKey) (compute : Compute) (hold : Bool) :
    (s.refresh id key compute hold).2.now = s.now ∧ (s.refresh id key compute hold).2.sweep = s.sweep ∧
      (s.refresh id key compute hold).2.waiting = s.waiting ∧
      (s.refresh id key compute hold).2.running = s.running ++
        if hold && !s.cache.gate.isInFlight key.text then [⟨id, key, compute, .refresh, false⟩] else [] := by
  unfold refresh
  rw [ResponseCache.claim?_eq]
  cases s.cache.gate.isInFlight key.text with
  | true => exact ⟨rfl, rfl, rfl, by simp⟩
  | false =>
    obtain ⟨hnow, hsweep, hwaiting, hrunning⟩ := launch_keeps { s with cache := _ } _ hold
    exact ⟨hnow, hsweep, hwaiting, by simpa using hrunning⟩

theorem advance_keeps (s : Session) (time : Duration) : (s.advance time).now = s.now + time ∧
    (s.advance time).waiting = s.waiting ∧ (s.advance time).running = s.running ∧
    (s.advance time).sweep = s.sweep.map (Sweep.later (s.now + time)) := by
  unfold advance sweepIfDue
  cases hsweep : s.sweep with
  | none => exact ⟨rfl, rfl, rfl, rfl⟩
  | some sweep =>
    simp only [Option.map_some, Sweep.later]
    split
    · exact ⟨rfl, rfl, rfl, rfl⟩
    · exact ⟨rfl, rfl, rfl, rfl⟩

theorem finish_keeps (s : Session) (id : CallId) : (s.finish id).2.now = s.now ∧
    (s.finish id).2.sweep = s.sweep ∧ (s.finish id).2.waiting = s.waiting ∧
    (s.finish id).2.running = s.running.eraseP (·.id = id) := by
  unfold finish
  cases hfound : s.running.find? (·.id = id) with
  | none =>
    refine ⟨rfl, rfl, rfl, (List.eraseP_of_forall_not fun job hjob => ?_).symm⟩
    exact List.find?_eq_none.1 hfound job hjob
  | some job => exact ⟨rfl, rfl, rfl, rfl⟩

theorem cancel_keeps (s : Session) (id : CallId) : (s.cancel id).2.now = s.now ∧
    (s.cancel id).2.sweep = s.sweep ∧ (s.cancel id).2.waiting = s.waiting.filter (·.id ≠ id) ∧
    (s.cancel id).2.running = if s.waiting.any (·.id = id) then s.running else
      s.running.map (.leftBy id) := by
  unfold cancel
  split
  · exact ⟨rfl, rfl, rfl, rfl⟩
  · rename_i hnone
    refine ⟨rfl, rfl, (List.filter_eq_self.2 fun f hf => ?_).symm, rfl⟩
    refine decide_eq_true fun hid => hnone ?_
    exact List.any_eq_true.2 ⟨f, hf, decide_eq_true hid⟩

theorem now_perform (s : Session) (a : Action) : (s.perform a).2.now =
    match a with
    | .advance time => s.now + time
    | .drain time => if s.cache.gate.isIdle then s.now else s.now + time
    | _ => s.now := by
  cases a with
  | fetch id params compute hold => exact (s.fetch_keeps id _ compute hold).1
  | refresh id params compute hold => exact (s.refresh_keeps id _ compute hold).1
  | finish id => exact (s.finish_keeps id).1
  | cancel id => exact (s.cancel_keeps id).1
  | advance time => exact (s.advance_keeps time).1
  | drain time =>
    simp only [perform, drain]
    split
    · rfl
    · exact (s.advance_keeps time).1
  | _ => rfl

theorem sweep_perform (s : Session) (a : Action) : (s.perform a).2.sweep =
    match a with
    | .advance time => s.sweep.map (Sweep.later (s.now + time))
    | .drain time => if s.cache.gate.isIdle then s.sweep else s.sweep.map (Sweep.later (s.now + time))
    | .startSweep timer interval => (s.startSweep timer interval).sweep
    | .stopSweep => none
    | _ => s.sweep := by
  cases a with
  | fetch id params compute hold => exact (s.fetch_keeps id _ compute hold).2.1
  | refresh id params compute hold => exact (s.refresh_keeps id _ compute hold).2.1
  | finish id => exact (s.finish_keeps id).2.1
  | cancel id => exact (s.cancel_keeps id).2.1
  | advance time => exact (s.advance_keeps time).2.2.2
  | drain time =>
    simp only [perform, drain]
    split
    · rfl
    · exact (s.advance_keeps time).2.2.2
  | _ => rfl

theorem waiting_perform (s : Session) (a : Action) : (s.perform a).2.waiting =
    match a with
    | .fetch id params compute hold => s.waiting ++ s.fetchWaits id (.ofParams params) compute hold
    | .cancel id => s.waiting.filter (·.id ≠ id)
    | _ => s.waiting := by
  cases a with
  | fetch id params compute hold => exact (s.fetch_keeps id _ compute hold).2.2.1
  | refresh id params compute hold => exact (s.refresh_keeps id _ compute hold).2.2.1
  | finish id => exact (s.finish_keeps id).2.2.1
  | cancel id => exact (s.cancel_keeps id).2.2.1
  | advance time => exact (s.advance_keeps time).2.1
  | drain time =>
    simp only [perform, drain]
    split
    · rfl
    · exact (s.advance_keeps time).2.1
  | _ => rfl

theorem running_perform (s : Session) (a : Action) : (s.perform a).2.running =
    match a with
    | .fetch id params compute hold => s.running ++ s.fetchOpens id (.ofParams params) compute hold
    | .refresh id params compute hold => s.running ++
      if hold && !s.cache.gate.isInFlight (CacheKey.ofParams params).text then
        [⟨id, .ofParams params, compute, .refresh, false⟩] else []
    | .finish id => s.running.eraseP (·.id = id)
    | .cancel id => if s.waiting.any (·.id = id) then s.running else
      s.running.map (.leftBy id)
    | _ => s.running := by
  cases a with
  | fetch id params compute hold => exact (s.fetch_keeps id _ compute hold).2.2.2
  | refresh id params compute hold => exact (s.refresh_keeps id _ compute hold).2.2.2
  | finish id => exact (s.finish_keeps id).2.2.2
  | cancel id => exact (s.cancel_keeps id).2.2.2
  | advance time => exact (s.advance_keeps time).2.2.1
  | drain time =>
    simp only [perform, drain]
    split
    · rfl
    · exact (s.advance_keeps time).2.2.1
  | _ => rfl

end Session

end FizzService
