/-
A run that names few keys. All that a session holds is of keys that have been
named (`Confined`), so as long as they are no more than there is room for,
nothing is ever evicted and no key finds the line full: the session is `Fit`,
and stays so (`Fit.next`).
-/
import FizzService.Proofs.Cache.Fields
import FizzService.Proofs.Cache.Ownership
import FizzService.Proofs.Cache.Queue
import FizzService.Proofs.Cache.Record

namespace FizzService

namespace Session

/-- A session that holds nothing but what is of the given keys. -/
structure Confined (keys : List String) (s : Session) : Prop where
  stores : s.cache.stores.Confined keys
  line : ∀ key ∈ s.cache.queue.line, key.text ∈ keys
  running : ∀ job ∈ s.running, job.key.text ∈ keys
  waiting : ∀ f ∈ s.waiting, f.key.text ∈ keys

/-- An action that names none but the given keys. -/
def Names (keys : List String) (a : Action) : Prop :=
  ∀ params, a.params? = some params → (CacheKey.ofParams params).text ∈ keys

variable {keys : List String} {s : Session} {a : Action}

/-! ## Actions -/

theorem key_of_fetchOpens {id : CallId} {key : CacheKey} {compute : Compute} {hold : Bool}
    {job : OpenComputation} (h : job ∈ s.fetchOpens id key compute hold) : job.key = key := by
  unfold fetchOpens at h
  split at h
  · rw [List.mem_singleton.1 h]
  · rw [List.mem_singleton.1 h]
  · cases h

theorem key_of_fetchWaits {id : CallId} {key : CacheKey} {compute : Compute} {hold : Bool}
    {f : WaitingFetch} (h : f ∈ s.fetchWaits id key compute hold) : f.key = key := by
  unfold fetchWaits at h
  split at h
  · rw [List.mem_singleton.1 h]
  · cases h

/-- A round of the worker takes a key from the line. -/
theorem mem_line_of_roundKey? {now : Instant} {compute : Compute} {n : Nat} {c : ResponseCache} {key : CacheKey}
    (h : (ResponseCache.workRounds now compute n c).roundKey? = some key) : key ∈ c.queue.line := by
  obtain ⟨hhead, -⟩ := Option.filter_eq_some_iff.1 h
  have hm := List.mem_of_mem_head? hhead
  rw [ResponseCache.line_workRounds] at hm
  exact List.mem_of_mem_drop hm

theorem Confined.of_put (h : s.Confined keys) (ha : Names keys a) {key : CacheKey} {body : ByteArray}
    (hput : .put key body ∈ s.accesses a) : key.text ∈ keys := by
  obtain ⟨c, hw⟩ := put_mem_accesses.1 hput
  rw [← key.ofParams_params]
  generalize key.params = params at hw ⊢
  cases hw with
  | set => exact ha params rfl
  | finish id job _ found => 
    rw [CacheKey.ofParams_params]
    exact h.running job (List.mem_of_find?_eq_some found)
  | fetch id => exact ha params rfl
  | refresh id => exact ha params rfl
  | work compute n key' _ _ taken =>
    rw [CacheKey.ofParams_params]
    exact h.line key' (mem_line_of_roundKey? taken)

theorem Confined.perform (h : s.Confined keys) (ha : Names keys a) : (s.perform a).2.Confined keys where
  stores := by
    rw [(s.perform_performed a).stores]
    exact h.stores.replay (fun _ _ => h.of_put ha) _
  line key hm := by
    rcases mem_line_perform hm with hm | ⟨hnamed, -⟩
    · exact h.line key hm
    · rw [← key.ofParams_params]
      exact ha _ hnamed
  running job hm := by
    rw [running_perform] at hm
    split at hm
    · rcases List.mem_append.1 hm with hm | hm
      · exact h.running job hm
      · rw [key_of_fetchOpens hm]
        exact ha _ rfl
    · rcases List.mem_append.1 hm with hm | hm
      · exact h.running job hm
      · split at hm
        · rw [List.mem_singleton.1 hm]
          exact ha _ rfl
        · cases hm
    · exact h.running job (List.mem_of_mem_eraseP hm)
    · split at hm
      · exact h.running job hm
      · obtain ⟨job', hm', rfl⟩ := List.mem_map.1 hm
        rw [OpenComputation.key_leftBy]
        exact h.running job' hm'
    · exact h.running job hm
  waiting f hm := by
    rw [waiting_perform] at hm
    split at hm
    · rcases List.mem_append.1 hm with hm | hm
      · exact h.waiting f hm
      · rw [key_of_fetchWaits hm]
        exact ha _ rfl
    · exact h.waiting f (List.mem_filter.1 hm).1
    · exact h.waiting f hm

/-! ## Polls -/

theorem Confined.settle (h : s.Confined keys) : s.settle.2.Confined keys where
  stores := by
    rw [stores_settle]
    refine h.stores.replay (fun key body hput => ?_) _
    obtain ⟨f, -, he⟩ := List.mem_map.1 hput
    cases he
  line key hm := by
    rw [queue_settle] at hm
    rcases RefreshQueue.mem_of_mem_enqueueAll hm with hm | hm
    · exact h.line key hm
    · obtain ⟨f, hf, rfl⟩ := List.mem_map.1 (List.mem_filter.1 hm).1
      exact h.waiting f (List.mem_filter.1 hf).1
  running job hm := by
    rw [running_settle, List.mem_append] at hm
    rcases hm with hm | hm
    · exact h.running job hm
    · obtain ⟨f, hf, hopened⟩ := List.mem_flatMap.1 hm
      rw [purpose_of_opened hopened]
      exact h.waiting f (List.mem_filter.1 hf).1
  waiting f hm := by
    rw [waiting_settle] at hm
    obtain ⟨f', hf', w, -, rfl⟩ := mem_kept hm
    exact h.waiting f' hf'

/-! ## Room for all -/

/-- A session that never runs out of room: all its invariants hold, and the
keys that it may come to hold are few enough. -/
structure Fit (keys : List String) (s : Session) : Prop where
  orderly : s.Orderly
  owned : s.Owned
  confined : s.Confined keys
  room : s.cache.config.Roomy keys.length
  line : s.LineFor keys.length

theorem Fit.perform (h : s.Fit keys) (ha : Names keys a) : (s.perform a).2.Fit keys :=
  ⟨h.orderly.perform a, h.owned.moves (s.perform_performed a).moves, h.confined.perform ha,
    (s.perform_performed a).config ▸ h.room, h.line.perform a⟩

theorem Fit.settle (h : s.Fit keys) : s.settle.2.Fit keys :=
  ⟨h.orderly.settle, h.owned.settle, h.confined.settle, s.config_settle ▸ h.room, h.line.settle⟩

theorem Fit.next {t : Step} (h : s.Fit keys) (ht : Names keys t.action) : (s.next t).Fit keys := by
  rw [next_eq]
  split
  · exact (h.perform ht).settle
  · exact h.perform ht

/-- A cache that has just been built is fit for as many keys as it has room for. -/
theorem Fit.new {config : CacheConfig} (h : Session.new config = .ok s)
    (hkeys : keys.length ≤ min (max config.entryMaxSize.toNat 10)
      (min config.negativeMaxSize.toNat config.refreshQueueCapacity.toNat)) : s.Fit keys := by
  have hline := LineFor.new h
  have hempty := (RefreshQueue.Sound.new (queue_new h)).2.2
  refine ⟨.new h, .new h, ?_, ?_, hline.1, Nat.le_trans ?_ hline.2⟩
  · obtain ⟨-, queue, rfl⟩ := new_eq_ok h
    refine ⟨⟨List.nil_subset _, List.nil_subset _⟩, fun key hm => ?_, fun _ hm => ?_, fun _ hm => ?_⟩
    · rw [hempty] at hm
      cases hm
    · cases hm
    · cases hm
  · obtain ⟨-, queue, rfl⟩ := new_eq_ok h
    refine ⟨?_, ?_⟩
    · change keys.length ≤ max config.clamped.entryMaxSize.toNat 1
      rw [config.toNat_entryMaxSize_clamped]
      omega
    · change keys.length ≤ max config.negativeMaxSize.toNat 1
      omega
  · omega

end Session

end FizzService
