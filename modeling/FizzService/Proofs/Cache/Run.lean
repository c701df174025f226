/-
Runs: a session that has just been built, and steps in any order from there.
What one action and one poll keep, every run keeps (`after_induction`). The
accesses that a run makes to the stores are its `history`; the stores are at
all times what that history makes of them, step by step (`stores_next`).
-/
import FizzService.Proofs.Cache.Perform

namespace FizzService

/-- An action, with or without a poll of the waiting fetches after it. -/
structure Step where
  action : Action
  settled : Bool

/-- A small configuration. -/
def CacheConfig.small : CacheConfig where
  entryMaxSize := 10
  entryTtl := .ofSeconds 60
  negativeMaxSize := 4
  negativeTtl := .ofSeconds 10
  maxAcceptedBytes := 64
  pruneBatch := 0
  maxStale := .ofSeconds 30
  refreshQueueCapacity := 8

namespace Session

/-- The session that a step leaves. -/
def next (s : Session) (t : Step) : Session := (s.step t.action t.settled).2.2

/-- The session that a run leaves. -/
def after (s : Session) (run : List Step) : Session := run.foldl next s

theorem next_eq (s : Session) (t : Step) :
    s.next t = if t.settled then (s.perform t.action).2.settle.2 else (s.perform t.action).2 := by
  simp only [next, step]
  split <;> rfl

theorem step_fst (s : Session) (a : Action) (settled : Bool) :
    (s.step a settled).1 = (s.perform a).1 := by
  simp only [step]
  split <;> rfl

theorem step_events (s : Session) (a : Action) (settled : Bool) :
    (s.step a settled).2.1 = if settled then (s.perform a).2.settle.1 else [] := by
  simp only [step]
  split <;> rfl

theorem after_append (s : Session) (run run' : List Step) :
    s.after (run ++ run') = (s.after run).after run' := List.foldl_append ..

variable {P : Session → Prop}

theorem next_induction {s : Session} (h : P s) (hperform : ∀ a, P s → P (s.perform a).2)
    (hsettle : ∀ s, P s → P s.settle.2) (t : Step) : P (s.next t) := by
  rw [next_eq]
  split
  · exact hsettle _ (hperform _ h)
  · exact hperform _ h

/-- What every action and every poll keeps holds after every run. -/
theorem after_induction {s : Session} (h : P s) (hperform : ∀ s a, P s → P (s.perform a).2)
    (hsettle : ∀ s, P s → P s.settle.2) (run : List Step) : P (s.after run) := by
  induction run generalizing s with
  | nil => exact h
  | cons t run ih => exact ih (next_induction h (hperform s) hsettle t)

/-! ## The start -/

theorem exists_of_new {config : CacheConfig} {s : Session} (h : Session.new config = .ok s) :
    ∃ c, ResponseCache.new config = .ok c ∧ s = ofCache c := by
  unfold Session.new at h
  cases hc : ResponseCache.new config with
  | error e => rw [hc] at h; cases h
  | ok c => rw [hc] at h; cases h; exact ⟨c, rfl, rfl⟩

theorem new_eq_ok {config : CacheConfig} {s : Session} (h : Session.new config = .ok s) :
    (∀ setting, config.isZero setting = false) ∧ ∃ queue, s = ofCache {
      config := config.clamped
      stores := {
        entries :=
          ResponseCache.emptyStore config.clamped config.clamped.entryMaxSize config.clamped.entryTtl
        negatives :=
          ResponseCache.emptyStore config.clamped config.clamped.negativeMaxSize
            config.clamped.negativeTtl }
      gate := .empty
      queue := queue
      counters := {} } := by
  obtain ⟨c, hc, rfl⟩ := exists_of_new h
  obtain ⟨hpositive, queue, -, rfl⟩ := ResponseCache.new_eq_ok.1 hc
  exact ⟨hpositive, queue, rfl⟩

/-- The cache that is built from the small configuration. -/
def small : Session := ofCache {
  config := .small
  stores := {
    entries := .new 10 1 (.ofSeconds 60)
    negatives := .new 4 1 (.ofSeconds 10) }
  gate := .empty
  queue := ⟨8, [], []⟩
  counters := {} }

theorem new_small : Session.new .small = .ok .small := rfl

/-! ## The history -/

/-- The accesses to the stores that a step makes, in order. -/
def stepAccesses (s : Session) (t : Step) : List Access :=
  s.accesses t.action ++ if t.settled then (s.perform t.action).2.ready.map (.find ·.key) else []

/-- The accesses to the stores that a run makes, in order. -/
def history (s : Session) : List Step → List Access
  | [] => []
  | t :: run => s.stepAccesses t ++ (s.next t).history run

theorem config_next (s : Session) (t : Step) : (s.next t).cache.config = s.cache.config :=
  next_induction (P := fun t => t.cache.config = s.cache.config) rfl
    (fun a _ => (s.perform_performed a).config) (fun _ h => by rw [config_settle, h]) t

@[simp] theorem config_after (s : Session) (run : List Step) :
    (s.after run).cache.config = s.cache.config :=
  after_induction (P := fun t => t.cache.config = s.cache.config) rfl
    (fun t a h => (t.perform_performed a).config.trans h) (fun _ h => by rw [config_settle, h]) run

/-- What a step does to the stores, it does at one time. -/
theorem stores_next (s : Session) (t : Step) : (s.next t).cache.stores =
    s.cache.stores.replay s.cache.config (s.next t).now (s.stepAccesses t) := by
  have hp := s.perform_performed t.action
  rw [next_eq, stepAccesses]
  split
  · rw [now_settle, stores_settle, hp.stores, hp.config]
    exact (List.foldl_append ..).symm
  · rw [List.append_nil]
    exact hp.stores

/-! ## The calls -/

/-- The compute functions that a step calls, in order, each with its key. -/
def stepCalls (s : Session) (t : Step) : List (CacheKey × Compute) :=
  s.calls t.action ++
    if t.settled then (s.perform t.action).2.ready.flatMap (s.perform t.action).2.called else []

/-- The compute functions that a run calls, in order, each with its key. -/
def runCalls (s : Session) : List Step → List (CacheKey × Compute)
  | [] => []
  | t :: run => s.stepCalls t ++ (s.next t).runCalls run

theorem runCalls_append (s : Session) (run run' : List Step) :
    s.runCalls (run ++ run') = s.runCalls run ++ (s.after run).runCalls run' := by
  induction run generalizing s with
  | nil => rfl
  | cons t run ih =>
    simp only [List.cons_append, runCalls, ih, List.append_assoc]
    rfl

/-- Each call is counted as a computation, and nothing else is. -/
theorem computations_after (s : Session) (run : List Step) : (s.after run).cache.counters.computations =
    s.cache.counters.computations + (s.runCalls run).length := by
  have hnext : ∀ (s : Session) (t : Step), (s.next t).cache.counters.computations =
      s.cache.counters.computations + (s.stepCalls t).length := by
    intro s t
    have hp := s.perform_performed t.action
    rw [next_eq, stepCalls, List.length_append]
    split
    · rw [computations_settle, hp.computations, Nat.add_assoc]
    · rw [hp.computations]
      rfl
  induction run generalizing s with
  | nil => rfl
  | cons t run ih =>
    rw [runCalls, List.length_append, ← Nat.add_assoc, ← hnext]
    exact ih (s.next t)

end Session

end FizzService
