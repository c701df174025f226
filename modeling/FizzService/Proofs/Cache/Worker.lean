/-
The refresh worker, run until the line is empty. `Works` is its loop, round by
round and without a bound: it takes the next key in line, passes it over if it
is in flight, computes and files it otherwise, and stops when the line is
empty. Since a round gives back what it takes and puts nothing in line, the
loop ends after one round for each key, and which keys are passed over is
settled before it begins (`works_work`, `Works.unique`).

What it leaves is told at once and not round by round: the bodies it got are
filed in the order of the line (`stores_work`), and the counters have grown by
the computations and by the failures among them (`counters_work`).
-/
import FizzService.Proofs.Cache.Accounts
import FizzService.Proofs.Cache.Stale

namespace FizzService

/-- A round of the worker. -/
structure Round where
  /-- The key that it took out of the line. -/
  key : CacheKey
  /-- What the computation of the key ended with; none if the key was passed over. -/
  outcome : Option Outcome

namespace ResponseCache

/-- The worker at work, from one state of the cache to another and round by
round. -/
inductive Works (now : Instant) (compute : Compute) : ResponseCache → List Round → ResponseCache → Prop
  | idle {c : ResponseCache} (empty : c.nextRefresh.1 = none) : Works now compute c [] c
  | passes {c next d : ResponseCache} {key : CacheKey} {rounds : List Round}
    (due : c.nextRefresh = (some key, next)) (taken : next.claim? key = none)
    (rest : Works now compute next rounds d) : Works now compute c (⟨key, none⟩ :: rounds) d
  | computes {c next claimed d : ResponseCache} {key : CacheKey} {rounds : List Round}
    (due : c.nextRefresh = (some key, next)) (free : next.claim? key = some claimed)
    (rest : Works now compute (claimed.run now key .owner compute).2 rounds d) :
    Works now compute c (⟨key, some (compute key.params)⟩ :: rounds) d

/-- The keys in line that nobody is computing. -/
def free (c : ResponseCache) : List CacheKey := c.queue.line.filter fun key => !c.gate.isInFlight key.text

/-- What the worker does with a key in line. -/
def round (c : ResponseCache) (compute : Compute) (key : CacheKey) : Round :=
  ⟨key, if c.gate.isInFlight key.text then none else some (compute key.params)⟩

/-- The cache in which the bodies of the given keys are set in turn, as far as
there are any. -/
def setAll (c : ResponseCache) (now : Instant) (compute : Compute) (keys : List CacheKey) : ResponseCache :=
  keys.foldl (fun c key =>
    match compute key.params with
    | .body body => c.set now key body
    | _ => c) c

variable {now : Instant} {compute : Compute} {c d d' : ResponseCache} {rounds rounds' : List Round} {key : CacheKey}
  {line : List CacheKey}

/-! ## One round -/

theorem isInFlight_workOne (c : ResponseCache) (now : Instant) (compute : Compute) (k : String) :
    (c.workOne now compute).gate.isInFlight k = c.gate.isInFlight k := by
  rw [Gate.isInFlight, Gate.isInFlight, (c.gate_workOne now compute).1]

theorem work_of_line (now : Instant) (compute : Compute) (hline : c.queue.line = key :: line) :
    c.work now compute = (c.workOne now compute).work now compute ∧ (c.workOne now compute).queue.line = line := by
  have hrest : (c.workOne now compute).queue.line = line := by
    rw [queue_workOne, RefreshQueue.line_dequeue, hline, List.tail_cons]
  refine ⟨?_, hrest⟩
  rw [work, work, hrest, hline]
  rfl

theorem work_of_nil (hline : c.queue.line = []) : c.work now compute = c := by
  rw [work, hline]
  rfl

/-- A round is what the loop does once. -/
theorem Works.cons (hline : c.queue.line = key :: line) (rest : Works now compute (c.workOne now compute) rounds d) :
    Works now compute c (c.round compute key :: rounds) d := by
  have hdue : c.nextRefresh = (some key, { c with queue := c.queue.dequeue.2 }) := by
    unfold nextRefresh RefreshQueue.dequeue
    rw [hline]
  have hclaim : ({ c with queue := c.queue.dequeue.2 } : ResponseCache).claim? key =
      if c.gate.isInFlight key.text then none
      else some { c with
        queue := c.queue.dequeue.2
        gate := ⟨c.gate.inFlight ++ [key.text], c.gate.broadcasts⟩ } := claim?_eq ..
  unfold workOne at rest
  rw [hdue] at rest
  unfold round
  cases hk : c.gate.isInFlight key.text with
  | true =>
    rw [hk, if_pos rfl] at hclaim
    simp only [hclaim] at rest
    exact .passes hdue hclaim rest
  | false =>
    rw [hk, if_neg Bool.false_ne_true] at hclaim
    simp only [hclaim] at rest
    exact .computes hdue hclaim rest

/-! ## The loop -/

/-- **The loop ends**, after a round for each key in line. -/
theorem works_work (now : Instant) (compute : Compute) (c : ResponseCache) :
    Works now compute c (c.queue.line.map (c.round compute)) (c.work now compute) := by
  induction hline : c.queue.line generalizing c with
  | nil =>
    rw [work_of_nil hline]
    exact .idle (by rw [nextRefresh, RefreshQueue.dequeue, hline])
  | cons key line ih =>
    obtain ⟨hwork, hrest⟩ := work_of_line now compute hline
    have hround : (c.workOne now compute).round compute = c.round compute := by
      funext key'
      rw [round, round, isInFlight_workOne]
    have hworks := ih (c.workOne now compute) hrest
    rw [hround, ← hwork] at hworks
    exact .cons hline hworks

/-- The loop leaves no choice. -/
theorem Works.unique (h : Works now compute c rounds d) (h' : Works now compute c rounds' d') :
    rounds' = rounds ∧ d' = d := by
  induction h generalizing rounds' with
  | idle empty =>
    cases h' with
    | idle => exact ⟨rfl, rfl⟩
    | passes due | computes due => rw [due] at empty; cases empty
  | passes due taken _ ih =>
    cases h' with
    | idle empty => rw [due] at empty; cases empty
    | passes due' _ rest' =>
      cases due.symm.trans due'
      obtain ⟨rfl, hd⟩ := ih rest'
      exact ⟨rfl, hd⟩
    | computes due' free' =>
      cases due.symm.trans due'
      rw [taken] at free'
      cases free'
  | computes due free _ ih =>
    cases h' with
    | idle empty => rw [due] at empty; cases empty
    | passes due' taken' =>
      cases due.symm.trans due'
      rw [free] at taken'
      cases taken'
    | computes due' free' rest' =>
      cases due.symm.trans due'
      cases free.symm.trans free'
      obtain ⟨rfl, hd⟩ := ih rest'
      exact ⟨rfl, hd⟩

/-! ## What it leaves -/

/-- The key of a round is the first that is free, if it is the first in line. -/
theorem free_workOne (now : Instant) (compute : Compute) (hline : c.queue.line = key :: line) :
    c.free = c.roundKey?.toList ++ (c.workOne now compute).free := by
  rw [free, free, roundKey?, (work_of_line now compute hline).2, hline, List.filter_cons, List.head?_cons,
    Option.filter_some]
  simp only [isInFlight_workOne]
  cases c.gate.isInFlight key.text <;> rfl

/-- The compute function is called for each key that is free, in the order of
the line. -/
theorem roundsCalls_free (now : Instant) (compute : Compute) (c : ResponseCache) :
    roundsCalls now compute c.queue.line.length c = c.free.map fun key => (key, compute) := by
  induction hline : c.queue.line generalizing c with
  | nil =>
    rw [free, hline]
    rfl
  | cons key line ih =>
    have hrest := (work_of_line now compute hline).2
    rw [List.length_cons, roundsCalls, ih (c.workOne now compute) hrest, free_workOne now compute hline,
      List.map_append]
    cases c.roundKey? <;> rfl

theorem stores_setAll (now : Instant) (compute : Compute) (keys : List CacheKey) (c : ResponseCache) :
    (c.setAll now compute keys).stores =
      c.stores.replay c.config now (keys.flatMap fun key => Role.owner.writes key (compute key.params)) := by
  induction keys generalizing c with
  | nil => rfl
  | cons key keys ih =>
    rw [setAll, List.foldl_cons, ← setAll, ih, List.flatMap_cons]
    cases compute key.params <;> rfl

/-- The bodies are filed in the order of the line. -/
theorem stores_work (now : Instant) (compute : Compute) (c : ResponseCache) :
    (c.work now compute).stores = (c.setAll now compute c.free).stores := by
  rw [work, stores_workRounds, roundsWrites_eq, roundsCalls_free, stores_setAll, List.flatMap_map]

theorem counters_workOne (now : Instant) (compute : Compute) (c : ResponseCache) :
    (c.workOne now compute).counters = { c.counters with
      computations := c.counters.computations + c.roundKey?.toList.length
      computeFailures := c.counters.computeFailures +
        (c.roundKey?.toList.filter fun key => (compute key.params).isFailure).length } := by
  rw [workOne_eq]
  cases c.roundKey? with
  | none => rfl
  | some key =>
    simp only [counters_finish]
    cases hfailed : (compute key.params).isFailure <;> simp [start, count, Counters.record, hfailed]

/-- The computations are counted, and the failures among them. -/
theorem counters_work (now : Instant) (compute : Compute) (c : ResponseCache) :
    (c.work now compute).counters = { c.counters with
      computations := c.counters.computations + c.free.length
      computeFailures := c.counters.computeFailures +
        (c.free.filter fun key => (compute key.params).isFailure).length } := by
  induction hline : c.queue.line generalizing c with
  | nil =>
    rw [work_of_nil hline, free, hline]
    rfl
  | cons key line ih =>
    obtain ⟨hwork, hrest⟩ := work_of_line now compute hline
    rw [hwork, ih (c.workOne now compute) hrest, free_workOne now compute hline, counters_workOne]
    simp only [List.filter_append, List.length_append, Nat.add_assoc]

theorem queue_work (now : Instant) (compute : Compute) (hq : c.queue.Sound) :
    (c.work now compute).queue.line = [] ∧ (c.work now compute).queue.pending = 0 := by
  have hsound : (c.work now compute).queue.Sound :=
    queue_workRounds_induction now (fun _ hq => hq.dequeue) _ c hq
  have hline := c.line_work now compute
  exact ⟨hline, by rw [hsound.pending_eq, hline]; rfl⟩

end ResponseCache

namespace Session

open ResponseCache (Works)

variable {s : Session} {config : CacheConfig}

/-- Who waits, waits for a key that the worker passes over. -/
theorem Settled.ready_work (h : s.Settled config) (compute : Compute) : (s.perform (.work compute)).2.ready = [] := by
  obtain ⟨-, howned, hattended, -⟩ := h.holds
  have hperformed := s.perform_performed (.work compute)
  refine (howned.moves hperformed.moves).ready_of_attended fun f hf => ?_
  obtain ⟨hawaits, htaken⟩ := hattended f hf
  refine ⟨hawaits, ?_⟩
  rw [show (s.perform (.work compute)).2.cache.gate.inFlight = s.cache.gate.inFlight from
    (ResponseCache.gate_workRounds ..).1]
  exact htaken

/-- **The refresh worker** comes to an end. It takes the keys in line one by
one, each once and in their order, passes over those that are in flight and
computes every other once. The bodies it gets are on record as if they had
been set in that order, the line is empty, the registry is as it was, and
computations and failures are counted and nothing else is. Nobody who waits is
let go on by that. -/
theorem worker_empties_line (h : s.Settled config) (compute : Compute) :
    (∃ rounds d, Works s.now compute s.cache rounds d) ∧
    ∀ rounds d, Works s.now compute s.cache rounds d →
      rounds = s.cache.queue.line.map (fun key =>
        ⟨key, if s.cache.gate.isInFlight key.text then none else some (compute key.params)⟩) ∧
      s.cache.queue.line.Nodup ∧
      (∀ key, s.cache.queue.isQueued key = true ↔ key ∈ rounds.map (·.key)) ∧
      d.stores = (s.cache.setAll s.now compute s.cache.free).stores ∧
      d.queue.line = [] ∧ d.snapshot.pendingRefreshes = 0 ∧
      d.gate.inFlight = s.cache.gate.inFlight ∧
      d.counters = { s.cache.counters with
        computations := s.cache.counters.computations + s.cache.free.length
        computeFailures := s.cache.counters.computeFailures +
          (s.cache.free.filter fun key => (compute key.params).isFailure).length } ∧
      (s.step (.work compute) true).2.1 = [] ∧ (s.next ⟨.work compute, true⟩).cache = d := by
  have hq := h.sound_queue
  have hworks := ResponseCache.works_work s.now compute s.cache
  refine ⟨⟨_, _, hworks⟩, fun rounds d hd => ?_⟩
  obtain ⟨rfl, rfl⟩ := hworks.unique hd
  obtain ⟨hline, hpending⟩ := ResponseCache.queue_work s.now compute hq
  have hsettle := settle_of_ready (h.ready_work compute)
  refine ⟨rfl, hq.nodup, fun key => ?_, ResponseCache.stores_work .., hline, hpending,
    (ResponseCache.gate_workRounds ..).1, ResponseCache.counters_work .., ?_, ?_⟩
  · rw [hq.isQueued_iff, List.map_map]
    simp [Function.comp_def, ResponseCache.round]
  · rw [step_events, if_pos rfl, hsettle]
  · rw [next_eq, if_pos rfl, hsettle]
    rfl

/-- Two stale keys stand in line, and a refresh of the first is held open. -/
def lined : Session := small.after [⟨.set default ⟨#[7]⟩, true⟩,
  ⟨.set { (default : Params) with limit := 3 } ⟨#[8]⟩, true⟩,
  ⟨.advance (.ofSeconds 60), true⟩, ⟨.fetch "a" default (fun _ => .crash) false, true⟩,
  ⟨.fetch "b" { (default : Params) with limit := 3 } (fun _ => .crash) false, true⟩,
  ⟨.refresh "c" default (fun _ => .crash) true, true⟩]

/-- The worker passes the first over and computes the second. -/
theorem worker_empties_line_lined :
    let first : CacheKey := .ofParams default
    let second : CacheKey := .ofParams { (default : Params) with limit := 3 }
    let compute : Compute := fun p => if p.limit = 3 then .body ⟨#[9]⟩ else .crash
    lined.Settled .small ∧ lined.cache.queue.line = [first, second] ∧
    Works lined.now compute lined.cache [⟨first, none⟩, ⟨second, some (.body ⟨#[9]⟩)⟩]
      (lined.next ⟨.work compute, true⟩).cache ∧
    (lined.next ⟨.work compute, true⟩).cache.snapshot.pendingRefreshes = 0 ∧
    (lined.next ⟨.work compute, true⟩).cache.gate.inFlight = [first.text] := by
  intro first second compute
  have hsettled : lined.Settled .small := ⟨small, _, new_small, by simp, rfl⟩
  have hline : lined.cache.queue.line = [first, second] := rfl
  have hflight : lined.cache.gate.inFlight = [first.text] := rfl
  have hfirst : lined.cache.gate.isInFlight first.text = true := Gate.isInFlight_iff.2 (hflight ▸ .head _)
  have hsecond : lined.cache.gate.isInFlight second.text = false := by decide +kernel
  obtain ⟨⟨rounds, d, hd⟩, hall⟩ := worker_empties_line hsettled compute
  obtain ⟨hrounds, -, -, -, -, hpending, hgate, -, -, rfl⟩ := hall rounds d hd
  rw [hline] at hrounds
  simp only [List.map_cons, List.map_nil, hfirst, hsecond, if_true, Bool.false_eq_true, if_false] at hrounds
  rw [hrounds] at hd
  exact ⟨hsettled, hline, hd, hpending, hgate.trans hflight⟩

end Session

end FizzService
