/-
The limits of a cache are enforced in three places: the configuration is
checked and cut to its bounds, a store raises its capacity and fits its batch
to it, and an item cuts its lifetime. Here they agree: where the configuration
is accepted, the stores and the items keep the limits as it has them, and none
of the later clamps changes anything (`limits_agree`).
-/
import FizzService.Proofs.Cache.Expiry
import FizzService.Proofs.Cache.Loss

namespace FizzService

namespace CacheConfig

variable {config accepted : CacheConfig}

/-! ## The check of the configuration -/

theorem isZero_eq_false : (∀ setting, config.isZero setting = false) ↔
    config.entryTtl ≠ 0 ∧ config.negativeTtl ≠ 0 ∧ config.negativeMaxSize ≠ 0 ∧
      config.maxAcceptedBytes ≠ 0 ∧ config.refreshQueueCapacity ≠ 0 := by
  simp only [← beq_eq_false_iff_ne]
  constructor
  · intro h
    exact ⟨h .entryTtl, h .negativeTtl, h .negativeMaxSize, h .maxAcceptedBytes, h .refreshQueueCapacity⟩
  · rintro ⟨hentry, hnegative, hsize, hbytes, hqueue⟩ setting
    cases setting with
    | entryTtl => exact hentry
    | negativeTtl => exact hnegative
    | negativeMaxSize => exact hsize
    | maxAcceptedBytes => exact hbytes
    | refreshQueueCapacity => exact hqueue

/-- A configuration is refused for the first setting that is zero and must not be. -/
theorem validated_eq_error {e : ConfigError} : config.validated = .error e ↔
    ∃ before setting later, PositiveSetting.all = before ++ setting :: later ∧
      (∀ earlier ∈ before, config.isZero earlier = false) ∧ config.isZero setting = true ∧ e = .zero setting := by
  unfold validated
  cases hfirst : PositiveSetting.all.find? config.isZero with
  | some setting =>
    obtain ⟨hzero, before, later, hall, hbefore⟩ := List.find?_eq_some_iff_append.1 hfirst
    constructor
    · intro h
      cases h
      exact ⟨before, setting, later, hall, fun s hs => by simpa using hbefore s hs, hzero, rfl⟩
    · rintro ⟨before', setting', later', hall', hbefore', hzero', rfl⟩
      have hfirst' : PositiveSetting.all.find? config.isZero = some setting' :=
        List.find?_eq_some_iff_append.2
          ⟨hzero', before', later', hall', fun s hs => by simpa using hbefore' s hs⟩
      cases hfirst.symm.trans hfirst'
      rfl
  | none =>
    refine ⟨fun h => (by cases h), ?_⟩
    rintro ⟨before, setting, later, hall, -, hzero, -⟩
    have hmem : setting ∈ PositiveSetting.all := by simp [hall]
    exact absurd hzero (List.find?_eq_none.1 hfirst setting hmem)

theorem clamped_clamped (config : CacheConfig) : config.clamped.clamped = config.clamped := by
  have hmax : max (max config.entryMaxSize minEntries) minEntries = max config.entryMaxSize minEntries := by
    rw [← UInt64.toNat_inj, toNat_max, toNat_max, Nat.max_assoc, Nat.max_self]
  simp only [clamped, hmax, Nat.min_assoc, Nat.min_self]

/-- Clamping makes nothing zero. -/
theorem isZero_clamped (h : ∀ setting, config.isZero setting = false) (setting : PositiveSetting) :
    config.clamped.isZero setting = false := by
  have hlifetimes := lifetimes_pos h
  cases setting with
  | entryTtl => exact beq_eq_false_iff_ne.2 (Nat.ne_of_gt hlifetimes.1)
  | negativeTtl => exact beq_eq_false_iff_ne.2 (Nat.ne_of_gt hlifetimes.2)
  | negativeMaxSize => exact h .negativeMaxSize
  | maxAcceptedBytes => exact h .maxAcceptedBytes
  | refreshQueueCapacity => exact h .refreshQueueCapacity

/-- What has been accepted is accepted as it is. -/
theorem validated_validated (h : config.validated = .ok accepted) : accepted.validated = .ok accepted := by
  obtain ⟨hpositive, rfl⟩ := validated_eq_ok.1 h
  exact validated_eq_ok.2 ⟨isZero_clamped hpositive, (clamped_clamped config).symm⟩

/-! ## The batch of a store -/

/-- No size is so large that the batch overflows: it is what it would be without a bound. -/
theorem toNat_pruneBatchFor (config : CacheConfig) (capacity : UInt64) :
    (config.pruneBatchFor capacity).toNat =
      max 1 (min (if config.pruneBatch = 0 then capacity.toNat / 20 + 1 else config.pruneBatch.toNat)
        (max capacity.toNat 1)) := by
  have hauto : (capacity / 20 + 1).toNat = capacity.toNat / 20 + 1 := by
    have hsize := capacity.toNat_lt
    rw [UInt64.toNat_add, UInt64.toNat_div]
    simp only [UInt64.reduceToNat]
    omega
  simp only [pruneBatchFor, toNat_max, toNat_min, UInt64.reduceToNat, apply_ite UInt64.toNat, hauto]

/-- The batch that is chosen for a store with room is one that the store keeps. -/
theorem settings_emptyStore {ν : Type} {capacity : UInt64} (h : 0 < capacity.toNat) (config : CacheConfig)
    (lifetime : Duration) : (ResponseCache.emptyStore config capacity lifetime : Store String ν).settings =
      (capacity.toNat, (config.pruneBatchFor capacity).toNat, lifetime) := by
  obtain ⟨hone, hroom⟩ := config.pruneBatchFor_bounds capacity
  have hcapacity : max capacity.toNat 1 = capacity.toNat := Nat.max_eq_left h
  simp only [Store.settings, ResponseCache.emptyStore, Store.new]
  rw [Nat.min_eq_left hroom, Nat.max_eq_right hone, hcapacity]

/-- Both stores of an accepted configuration have room. -/
theorem capacities_pos (h : config.validated = .ok accepted) :
    0 < accepted.entryMaxSize.toNat ∧ 0 < accepted.negativeMaxSize.toNat := by
  obtain ⟨hpositive, rfl⟩ := validated_eq_ok.1 h
  refine ⟨?_, negativeMaxSize_pos (hpositive .negativeMaxSize)⟩
  rw [toNat_entryMaxSize_clamped]
  exact Nat.lt_of_lt_of_le (by decide) (Nat.le_max_right ..)

end CacheConfig

namespace Session

/-- The stores of a session, and the items in them, keep the limits that an accepted configuration
sets. -/
structure KeepsLimits (accepted : CacheConfig) (history : List TimedAccess) (s : Session) : Prop where
  entries : s.cache.stores.entries.settings =
    (accepted.entryMaxSize.toNat, (accepted.pruneBatchFor accepted.entryMaxSize).toNat, accepted.entryTtl)
  negatives : s.cache.stores.negatives.settings =
    (accepted.negativeMaxSize.toNat, (accepted.pruneBatchFor accepted.negativeMaxSize).toNat,
      accepted.negativeTtl)
  entry : ∀ k i, s.cache.stores.entryAt k = some i →
    ∃ time, WrittenAt history k i.value time ∧ i.LivesFrom time accepted.entryTtl
  negative : ∀ k i, s.cache.stores.negativeAt k = some i →
    ∃ body time, WrittenAt history k body time ∧
      Negative.ofBody? accepted.maxAcceptedBytes.toNat body = some i.value ∧
      i.LivesFrom time accepted.negativeTtl

theorem keepsLimits_after {config : CacheConfig} {c : ResponseCache} (h : ResponseCache.new config = .ok c)
    (run : List Step) : ((ofCache c).after run).KeepsLimits c.config ((ofCache c).timedHistory run) := by
  have hnew : Session.new config = .ok (ofCache c) := by rw [Session.new, h]; rfl
  obtain ⟨hpositive, queue, -, rfl⟩ := ResponseCache.new_eq_ok.1 h
  obtain ⟨hentries, hnegatives⟩ := CacheConfig.capacities_pos (CacheConfig.validated_eq_ok.2 ⟨hpositive, rfl⟩)
  obtain ⟨hentryTtl, hnegativeTtl⟩ := CacheConfig.lifetimes_pos hpositive
  have horderly := Orderly.new hnew
  have hstores := (horderly.after run).stores
  rw [config_after] at hstores
  have hdated := horderly.dated_after (.of_absent fun _ => ⟨rfl, rfl⟩) run
  refine ⟨hstores.entrySettings.trans (CacheConfig.settings_emptyStore hentries ..),
    hstores.negativeSettings.trans (CacheConfig.settings_emptyStore hnegatives ..), fun k i hi => ?_, fun k i hi => ?_⟩
  · obtain ⟨time, hwritten, hmade⟩ := (hdated k).entry i hi
    refine ⟨time, hwritten, ?_⟩
    rw [hmade]
    exact Item.livesFrom_write hentryTtl (Nat.min_le_right ..) time i.value
  · obtain ⟨body, time, hwritten, hrecord, hmade⟩ := (hdated k).negative i hi
    refine ⟨body, time, hwritten, hrecord, ?_⟩
    rw [hmade]
    exact Item.livesFrom_write hnegativeTtl (Nat.min_le_right ..) time i.value

/-- **The layers of limits agree.** A configuration is accepted exactly if five
settings are not zero, with the sizes and durations cut to their bounds and all
else as it was, and refused for the first of the five that is zero otherwise;
what is accepted is accepted again unchanged. The batch of a store is computed
without overflow whatever its capacity. Of an accepted configuration it is at
least one and at most the capacity, for both stores; and if the refresh queue
can be set up, then there is a cache, and after every run its stores have the
capacities, batches and lifetimes of the configuration, and every item in them
expires exactly its lifetime after it was written. -/
theorem limits_agree (config : CacheConfig) :
    (∀ accepted, config.validated = .ok accepted ↔
      (config.entryTtl ≠ 0 ∧ config.negativeTtl ≠ 0 ∧ config.negativeMaxSize ≠ 0 ∧
        config.maxAcceptedBytes ≠ 0 ∧ config.refreshQueueCapacity ≠ 0) ∧
      accepted = { config with
        entryMaxSize := max config.entryMaxSize 10
        entryTtl := min config.entryTtl Duration.century
        negativeTtl := min config.negativeTtl Duration.century
        maxStale := min config.maxStale Duration.century }) ∧
    (∀ e, config.validated = .error e ↔ ∃ before setting later,
      [.entryTtl, .negativeTtl, .negativeMaxSize, .maxAcceptedBytes, .refreshQueueCapacity] =
        before ++ setting :: later ∧
      (∀ earlier ∈ before, config.isZero earlier = false) ∧ config.isZero setting = true ∧ e = .zero setting) ∧
    (∀ capacity : UInt64, (config.pruneBatchFor capacity).toNat =
      max 1 (min (if config.pruneBatch = 0 then capacity.toNat / 20 + 1 else config.pruneBatch.toNat)
        (max capacity.toNat 1))) ∧
    ∀ accepted, config.validated = .ok accepted →
      accepted.validated = .ok accepted ∧
      (∀ capacity ∈ [accepted.entryMaxSize, accepted.negativeMaxSize],
        1 ≤ accepted.pruneBatchFor capacity ∧ accepted.pruneBatchFor capacity ≤ capacity) ∧
      (config.refreshQueueCapacity.toNat ≤ RefreshQueue.longest → ∃ c, ResponseCache.new config = .ok c) ∧
      ∀ c, ResponseCache.new config = .ok c → ∀ run,
        ((ofCache c).after run).KeepsLimits accepted ((ofCache c).timedHistory run) := by
  refine ⟨fun accepted => ?_, fun e => CacheConfig.validated_eq_error,
    config.toNat_pruneBatchFor, fun accepted haccepted => ⟨?_, ?_, ?_, ?_⟩⟩
  · rw [CacheConfig.validated_eq_ok, CacheConfig.isZero_eq_false]
    rfl
  · exact CacheConfig.validated_validated haccepted
  · obtain ⟨hentries, hnegatives⟩ := CacheConfig.capacities_pos haccepted
    have hbatch : ∀ capacity : UInt64, 0 < capacity.toNat →
        1 ≤ accepted.pruneBatchFor capacity ∧ accepted.pruneBatchFor capacity ≤ capacity := by
      intro capacity hroom
      obtain ⟨hone, hall⟩ := accepted.pruneBatchFor_bounds capacity
      rw [Nat.max_eq_left hroom] at hall
      exact ⟨UInt64.le_iff_toNat_le.2 hone, UInt64.le_iff_toNat_le.2 hall⟩
    simp only [List.forall_mem_cons, List.not_mem_nil, false_imp_iff, implies_true, and_true]
    exact ⟨hbatch _ hentries, hbatch _ hnegatives⟩
  · intro hshort
    obtain ⟨hpositive, -⟩ := CacheConfig.validated_eq_ok.1 haccepted
    have hroom : max config.refreshQueueCapacity.toNat 1 ≤ RefreshQueue.longest :=
      Nat.max_le.2 ⟨hshort, by decide⟩
    exact ⟨_, ResponseCache.new_eq_ok.2 ⟨hpositive, _, if_pos hroom, rfl⟩⟩
  · intro c hnew run
    have hconfig : c.config = accepted := by
      obtain ⟨hpositive, queue, -, rfl⟩ := ResponseCache.new_eq_ok.1 hnew
      exact (CacheConfig.validated_eq_ok.1 haccepted).2.symm
    rw [← hconfig]
    exact keepsLimits_after hnew run

/-- The largest sizes there are, and lifetimes of a thousand years. -/
def vast : CacheConfig where
  entryMaxSize := 18446744073709551615
  entryTtl := .ofYears 1000
  negativeMaxSize := 18446744073709551615
  negativeTtl := .ofYears 1000
  maxAcceptedBytes := 18446744073709551615
  pruneBatch := 0
  maxStale := .ofYears 1000
  refreshQueueCapacity := 8

/-- The batch of the largest store is a twentieth of it and one more, and a body that is written
after a minute expires a century after that minute. -/
theorem limits_agree_vast :
    let run : List Step := [⟨.advance (.ofSeconds 60), true⟩, ⟨.set default ⟨#[7]⟩, true⟩]
    ∃ c accepted, vast.validated = .ok accepted ∧ ResponseCache.new vast = .ok c ∧
      accepted.validated = .ok accepted ∧ accepted.pruneBatchFor accepted.entryMaxSize = 922337203685477581 ∧
      ((ofCache c).after run).KeepsLimits accepted
        [⟨Duration.ofSeconds 60, .put (.ofParams default) ⟨#[7]⟩⟩] ∧
      ∃ i, ((ofCache c).after run).cache.stores.entryAt (CacheKey.ofParams default).text = some i ∧
        i.expiresAt = Duration.ofSeconds 60 + Duration.century := by
  intro run
  obtain ⟨-, -, -, haccepted⟩ := limits_agree vast
  have hvalid : vast.validated = .ok vast.clamped := rfl
  obtain ⟨hagain, -, -, hkeeps⟩ := haccepted vast.clamped hvalid
  exact ⟨_, _, hvalid, rfl, hagain, by decide, hkeeps _ rfl run, _, rfl, by decide⟩

end Session

end FizzService
