/-
Which configurations start. A cache is built from every configuration that is
accepted, and a service from every environment, whatever its variables hold,
with one exception: the length of the refresh queue is checked from below only,
and a queue that is longer than the longest line cannot be set up (`new_cases`).
So a service fails to start exactly if it is to have a cache, the configuration
of the cache is accepted, and its refresh queue is too long
(`starts_unless_queue_too_long`).
-/
import FizzService.Http.Service
import FizzService.Proofs.Cache.Response

namespace FizzService

theorem RefreshQueue.new?_eq_none {capacity : Nat} :
    RefreshQueue.new? capacity = none ↔ longest < capacity := by
  -- A queue for no keys is set up as a queue for one, which is not too long.
  have hpos : 1 ≤ longest := by decide
  unfold new?
  split
  · simp only [reduceCtorEq, false_iff]
    omega
  · simp only [true_iff]
    omega

namespace ResponseCache

/-- **What becomes of a configuration**: a cache with all settings inside their
bounds, the refusal that is given by the check of the settings, or a refresh
queue that is too long. -/
theorem new_cases (config : CacheConfig) :
    (∃ c, ResponseCache.new config = .ok c ∧ config.validated = .ok c.config ∧
      config.refreshQueueCapacity.toNat ≤ RefreshQueue.longest) ∨
    (∃ e, ResponseCache.new config = .error (.refused e) ∧ config.validated = .error e) ∨
    (∃ accepted, ResponseCache.new config = .error (.queueTooLong config.refreshQueueCapacity) ∧
      config.validated = .ok accepted ∧ RefreshQueue.longest < config.refreshQueueCapacity.toNat) := by
  cases hv : config.validated with
  | error e => exact .inr (.inl ⟨e, by rw [ResponseCache.new, hv], rfl⟩)
  | ok accepted =>
    obtain ⟨hpositive, rfl⟩ := CacheConfig.validated_eq_ok.1 hv
    cases hq : RefreshQueue.new? config.refreshQueueCapacity.toNat with
    | none =>
      refine .inr (.inr ⟨config.clamped, ?_, rfl, RefreshQueue.new?_eq_none.1 hq⟩)
      rw [ResponseCache.new, hv]
      simp only [CacheConfig.clamped, hq]
    | some queue =>
      have hshort : ¬ RefreshQueue.longest < config.refreshQueueCapacity.toNat := fun hlong => by
        rw [RefreshQueue.new?_eq_none.2 hlong] at hq
        cases hq
      exact .inl ⟨_, new_eq_ok.2 ⟨hpositive, queue, hq, rfl⟩, rfl, Nat.le_of_not_lt hshort⟩

end ResponseCache

namespace Service

/-- The cache that a service starts with: one if it is to have a cache and the
configuration of the cache is accepted, and none otherwise. -/
def StartsWith (config : Config) : Option ResponseCache → Prop
  | some c => config.cacheEnabled = true ∧ config.cache.validated = .ok c.config
  | none => config.cacheEnabled = false ∨ ∃ e, config.cache.validated = .error e

/-- The one way in which a service does not start. -/
structure QueueTooLong (config : Config) : Prop where
  enabled : config.cacheEnabled = true
  accepted : ∃ accepted, config.cache.validated = .ok accepted
  tooLong : RefreshQueue.longest < config.refreshQueueCapacity.toNat

theorem start_cases (config : Config) (compute : Compute) (epoch : Duration)
    (traversal : Dict.Traversal RequestLabels Nat) :
    (∃ cache, start config compute epoch traversal =
        .ok ⟨cache, compute, config.limits, .new traversal, 0, epoch⟩ ∧
      StartsWith config cache ∧ ¬ QueueTooLong config) ∨
    (start config compute epoch traversal = .error (.queueTooLong config.refreshQueueCapacity) ∧
      QueueTooLong config) := by
  unfold start
  cases henabled : config.cacheEnabled with
  | false =>
    exact .inl ⟨none, rfl, .inl henabled, fun h => by cases henabled.symm.trans h.enabled⟩
  | true =>
    rcases ResponseCache.new_cases config.cache with
      ⟨c, hnew, haccepted, hshort⟩ | ⟨e, hnew, hrefused⟩ | ⟨accepted, hnew, haccepted, hlong⟩
    · refine .inl ⟨some c, by simp only [hnew, if_true], ⟨henabled, haccepted⟩, fun h => ?_⟩
      exact Nat.not_lt.2 hshort h.tooLong
    · refine .inl ⟨none, by simp only [hnew, if_true], .inr ⟨e, hrefused⟩, fun h => ?_⟩
      obtain ⟨accepted, haccepted⟩ := h.accepted
      cases hrefused.symm.trans haccepted
    · exact .inr ⟨by simp only [hnew, if_true]; rfl, henabled, ⟨accepted, haccepted⟩, hlong⟩

/-- **Every environment starts a service**, with a cache if it is to have one
and its configuration is accepted and without one otherwise, unless the refresh
queue of that cache would be longer than the longest line; then, and only then,
there is no service. The same holds of a cache by itself, for every
configuration of it. -/
theorem starts_unless_queue_too_long (env : Environment) (compute : Compute) (epoch : Duration)
    (traversal : Dict.Traversal RequestLabels Nat) :
    (¬ QueueTooLong (.ofEnvironment env) ↔
      ∃ s, start (.ofEnvironment env) compute epoch traversal = .ok s ∧ StartsWith (.ofEnvironment env) s.cache ∧
        s.compute = compute ∧ s.limits = (Config.ofEnvironment env).limits) ∧
    (QueueTooLong (.ofEnvironment env) ↔ start (.ofEnvironment env) compute epoch traversal =
      .error (.queueTooLong (Config.ofEnvironment env).refreshQueueCapacity)) ∧
    ∀ config : CacheConfig,
      ((∃ c, ResponseCache.new config = .ok c) ∨ ∃ e, ResponseCache.new config = .error (.refused e)) ↔
        ¬ ((∃ accepted, config.validated = .ok accepted) ∧
          RefreshQueue.longest < config.refreshQueueCapacity.toNat) := by
  refine ⟨?_, ?_, fun config => ?_⟩
  · rcases start_cases (.ofEnvironment env) compute epoch traversal with ⟨cache, hstart, hwith, hshort⟩ | ⟨hstart, hlong⟩
    · exact ⟨fun _ => ⟨_, hstart, hwith, rfl, rfl⟩, fun _ => hshort⟩
    · refine ⟨fun hshort => (hshort hlong).elim, fun ⟨s, hs, _⟩ => ?_⟩
      cases hstart.symm.trans hs
  · rcases start_cases (.ofEnvironment env) compute epoch traversal with ⟨cache, hstart, hwith, hshort⟩ | ⟨hstart, hlong⟩
    · exact ⟨fun hlong => (hshort hlong).elim, fun hs => by cases hstart.symm.trans hs⟩
    · exact ⟨fun _ => hstart, fun _ => hlong⟩
  · rcases ResponseCache.new_cases config with
      ⟨c, hnew, haccepted, hshort⟩ | ⟨e, hnew, hrefused⟩ | ⟨accepted, hnew, haccepted, hlong⟩
    · exact ⟨fun _ h => Nat.not_lt.2 hshort h.2, fun _ => .inl ⟨c, hnew⟩⟩
    · refine ⟨fun _ h => ?_, fun _ => .inr ⟨e, hnew⟩⟩
      obtain ⟨accepted, haccepted⟩ := h.1
      cases hrefused.symm.trans haccepted
    · refine ⟨?_, fun h => (h ⟨⟨accepted, haccepted⟩, hlong⟩).elim⟩
      rintro (⟨c, hc⟩ | ⟨e, he⟩)
      · cases hnew.symm.trans hc
      · cases hnew.symm.trans he

/-- An environment that sets one variable, to a queue one longer than the longest line. -/
def hugeQueue : Environment := fun name =>
  if name = "REFRESH_QUEUE_CAPACITY" then some "2305843009213693952".toUTF8 else none

/-- The configuration of the cache is accepted, and there is no service. -/
theorem hugeQueue_fails : (∃ accepted, (Config.ofEnvironment hugeQueue).cache.validated = .ok accepted) ∧
    start (.ofEnvironment hugeQueue) renderer 0 .inserted = .error (.queueTooLong 2305843009213693952) :=
  ⟨⟨_, rfl⟩, rfl⟩

end Service

end FizzService
