/-
A store keeps its bound and its tracker: whatever is written, read, deleted
or purged, it holds no more items than it has room for, and the tracker
tracks exactly the keys that have an item (`Store.Sound`).

The look-up lemmas say which items an operation leaves: a write puts its own
in place and adds no other, and all other operations only take away. The
bound rests on the tracker: a full store has a key to evict because the
tracker tracks every key there is.
-/
import FizzService.Proofs.Store.Recency
import FizzService.Store.Bounded

namespace FizzService

variable {κ ν : Type} [DecidableEq κ] {s : Store κ ν}

/-- What a purge with a grace removes. -/
theorem Item.outlived_iff {i : Item ν} {now : Instant} {grace : Duration} :
    (i.isExpired now && grace ≤ i.staleFor now) = true ↔ i.expiresAt + grace ≤ now := by
  have hboundary : ∀ now expiresAt grace : Nat,
      expiresAt ≤ now ∧ grace ≤ now - expiresAt ↔ expiresAt + grace ≤ now := by omega
  rw [Bool.and_eq_true, isExpired, staleFor, decide_eq_true_eq, decide_eq_true_eq]
  exact hboundary ..

/-- What it leaves. -/
theorem Item.kept_iff {i : Item ν} {now : Instant} {grace : Duration} :
    (!(i.isExpired now && grace ≤ i.staleFor now)) = true ↔ now < i.expiresAt + grace := by
  rw [Bool.not_eq_true', ← Bool.not_eq_true, outlived_iff]
  exact Nat.not_le

structure Store.Sound (s : Store κ ν) : Prop where
  recency : s.recency.Sound
  tracks : ∀ k, s.recency.contains k = s.items.contains k
  nodup : s.items.keys.Nodup
  room : 1 ≤ s.capacity
  batch : 1 ≤ s.batch
  bounded : s.size ≤ s.capacity

namespace Store

/-- What a store is set up with, which no operation changes. -/
def settings (s : Store κ ν) : Nat × Nat × Duration := (s.capacity, s.batch, s.lifetime)

theorem Sound.new (capacity batch : Nat) (lifetime : Duration) :
    (Store.new capacity batch lifetime : Store κ ν).Sound where
  recency := .empty
  tracks _ := rfl
  nodup := .nil
  room := Nat.le_max_right ..
  batch := Nat.le_max_left ..
  bounded := Nat.zero_le _

/-! ## What an operation leaves -/

@[simp] theorem settings_set (s : Store κ ν) (now : Instant) (k : κ) (v : ν) (lifetime : Option Duration) :
    (s.set now k v lifetime).settings = s.settings := by
  unfold Store.set
  split <;> rfl

@[simp] theorem settings_get (s : Store κ ν) (now : Instant) (k : κ) :
    (s.get now k).2.settings = s.settings := by
  unfold Store.get
  split <;> rfl

@[simp] theorem settings_delete (s : Store κ ν) (k : κ) : (s.delete k).2.settings = s.settings := by
  unfold Store.delete
  split <;> rfl

@[simp] theorem settings_purge (s : Store κ ν) (now : Instant) (grace : Duration) :
    (s.purge now grace).2.settings = s.settings := rfl

@[simp] theorem evictions_get (s : Store κ ν) (now : Instant) (k : κ) :
    (s.get now k).2.evictions = s.evictions := by
  unfold Store.get
  split <;> rfl

@[simp] theorem evictions_delete (s : Store κ ν) (k : κ) : (s.delete k).2.evictions = s.evictions := by
  unfold Store.delete
  split <;> rfl

theorem get_fst (s : Store κ ν) (now : Instant) (k : κ) :
    (s.get now k).1 = (s.items.get? k).map fun i => ⟨i.value, i.isExpired now⟩ := by
  unfold Store.get
  split
  · rename_i i hi; rw [hi]; rfl
  · rename_i hn; rw [hn]; rfl

@[simp] theorem items_get (s : Store κ ν) (now : Instant) (k : κ) : (s.get now k).2.items = s.items := by
  unfold Store.get
  split <;> rfl

theorem delete_fst (s : Store κ ν) (k : κ) : (s.delete k).1 = (s.items.get? k).isSome := by
  rw [← Dict.contains_eq_isSome, delete]
  split
  · rename_i h; exact h.symm
  · rename_i h; exact (Bool.not_eq_true _ ▸ h).symm

theorem get?_delete (s : Store κ ν) (k k' : κ) :
    (s.delete k).2.items.get? k' = if k' = k then none else s.items.get? k' := by
  unfold Store.delete
  split
  · exact Dict.get?_erase ..
  · rename_i h
    split
    · rename_i hk
      rw [hk]
      rwa [Dict.contains_eq_isSome, Bool.not_eq_true, Option.isSome_eq_false_iff,
        Option.isNone_iff_eq_none] at h
    · rfl

theorem get?_prune {k : κ} {i : Item ν} (h : s.prune.items.get? k = some i) : s.items.get? k = some i := by
  change (s.items.eraseAll _).get? k = some i at h
  rw [Dict.get?_eraseAll] at h
  split at h
  · cases h
  · exact h

/-- The store in which a new item finds its place. -/
def cleared (s : Store κ ν) (k : κ) : Store κ ν :=
  if !s.items.contains k && s.capacity ≤ s.items.size then s.prune else s

theorem set_eq (s : Store κ ν) (now : Instant) (k : κ) (v : ν) (lifetime : Option Duration) :
    s.set now k v lifetime = { s.cleared k with
      items := (s.cleared k).items.insert k (.write now (lifetime.getD (s.cleared k).lifetime) v)
      recency := (s.cleared k).recency.touch k } := rfl

theorem lifetime_cleared (s : Store κ ν) (k : κ) : (s.cleared k).lifetime = s.lifetime := by
  unfold cleared
  split <;> rfl

/-- A written item is there, whatever had to leave for it. -/
theorem get?_set_self (s : Store κ ν) (now : Instant) (k : κ) (v : ν) (lifetime : Option Duration) :
    (s.set now k v lifetime).items.get? k = some (.write now (lifetime.getD s.lifetime) v) := by
  rw [set_eq, lifetime_cleared]
  exact Dict.get?_insert_self ..

theorem get?_of_set {now : Instant} {k k' : κ} {v : ν} {lifetime : Option Duration} {i : Item ν}
    (hk : k' ≠ k) (h : (s.set now k v lifetime).items.get? k' = some i) : s.items.get? k' = some i := by
  rw [set_eq] at h
  change ((s.cleared k).items.insert k _).get? k' = some i at h
  rw [Dict.get?_insert_other _ _ hk] at h
  unfold cleared at h
  split at h
  · exact get?_prune h
  · exact h

theorem get?_of_purge {now : Instant} {grace : Duration} {k : κ} {i : Item ν}
    (h : (s.purge now grace).2.items.get? k = some i) : s.items.get? k = some i := by
  change (s.items.eraseAll _).get? k = some i at h
  rw [Dict.get?_eraseAll] at h
  split at h
  · cases h
  · exact h

/-! ## The invariant -/

theorem Sound.get (h : s.Sound) (now : Instant) (k : κ) : (s.get now k).2.Sound := by
  unfold Store.get
  split
  · rename_i i hi
    refine ⟨h.recency.touch k, fun k' => ?_, h.nodup, h.room, h.batch, h.bounded⟩
    rw [Recency.contains_touch, h.tracks]
    by_cases hk : k' = k
    · simp [hk, Dict.contains_eq_isSome, hi]
    · simp [hk]
  · exact h

theorem Sound.delete (h : s.Sound) (k : κ) : (s.delete k).2.Sound := by
  unfold Store.delete
  split
  · refine ⟨h.recency.remove k, fun k' => ?_, Dict.nodup_keys_erase h.nodup k, h.room, h.batch,
      Nat.le_trans (Dict.size_erase_le ..) h.bounded⟩
    rw [Recency.contains_remove, h.tracks, Dict.contains_erase]
  · exact h

theorem Sound.purge (h : s.Sound) (now : Instant) (grace : Duration) : (s.purge now grace).2.Sound := by
  refine ⟨h.recency.foldl_remove _, fun k => ?_, Dict.nodup_keys_eraseAll h.nodup _, h.room, h.batch,
    Nat.le_trans (Dict.size_eraseAll_le ..) h.bounded⟩
  simp only [Store.purge]
  rw [Recency.contains_foldl_remove, h.tracks, Dict.contains_eraseAll]

/-- A store in which a key is tracked loses an item when it is pruned. -/
theorem Sound.size_prune_lt (h : s.Sound) (hfull : s.capacity ≤ s.size) : s.prune.size < s.size := by
  have hroom := h.room
  obtain ⟨k, hk⟩ : ∃ k, k ∈ s.items.keys :=
    List.exists_mem_of_length_pos (by rw [← Dict.size_eq_length_keys]; change 0 < s.size; omega)
  have htracked : s.recency.contains k = true := by rw [h.tracks]; exact Dict.mem_keys.1 hk
  obtain ⟨gone, hgone⟩ := List.exists_mem_of_ne_nil _ (h.recency.evictOldest_ne_nil h.batch htracked)
  have hmem : gone ∈ s.items.keys := by
    rw [Dict.mem_keys, ← h.tracks]
    exact h.recency.contains_of_evicted hgone
  exact Dict.size_eraseAll_lt hgone hmem

theorem Sound.prune (h : s.Sound) : s.prune.Sound := by
  refine ⟨h.recency.evictOldest _, fun k => ?_, Dict.nodup_keys_eraseAll h.nodup _, h.room, h.batch,
    Nat.le_trans (Dict.size_eraseAll_le ..) h.bounded⟩
  simp only [Store.prune]
  rw [Recency.contains_evictOldest, h.tracks, Dict.contains_eraseAll]

/-- Whoever is evicted had an item. -/
theorem Sound.evictions_prune (h : s.Sound) :
    s.prune.evictions = s.evictions + (s.recency.evictOldest s.batch).1.length := by
  have hall : (s.recency.evictOldest s.batch).1.filter s.items.contains = (s.recency.evictOldest s.batch).1 :=
    List.filter_eq_self.2 fun k hk => by rw [← h.tracks, h.recency.contains_of_evicted hk]
  change s.evictions + ((s.recency.evictOldest s.batch).1.filter s.items.contains).length = _
  rw [hall]

/-- There is room for a new key once the store is cleared for it. -/
theorem Sound.cleared (h : s.Sound) (k : κ) : (s.cleared k).Sound ∧
    ((s.cleared k).items.contains k = false → (s.cleared k).size < s.capacity) := by
  unfold Store.cleared
  split
  · rename_i hfull
    simp only [Bool.and_eq_true, Bool.not_eq_true', decide_eq_true_eq] at hfull
    refine ⟨h.prune, fun _ => ?_⟩
    have := h.size_prune_lt hfull.2
    have := h.bounded
    omega
  · rename_i hfull
    refine ⟨h, fun hk => ?_⟩
    simp only [hk, Bool.not_false, Bool.true_and, decide_eq_true_eq, Nat.not_le] at hfull
    exact hfull

theorem capacity_cleared (s : Store κ ν) (k : κ) : (s.cleared k).capacity = s.capacity := by
  unfold Store.cleared
  split <;> rfl

theorem Sound.set (h : s.Sound) (now : Instant) (k : κ) (v : ν) (lifetime : Option Duration) :
    (s.set now k v lifetime).Sound := by
  obtain ⟨hc, hroom⟩ := h.cleared k
  rw [set_eq]
  refine ⟨hc.recency.touch k, fun k' => ?_, Dict.nodup_keys_insert hc.nodup k _, hc.room, hc.batch, ?_⟩
  · rw [Recency.contains_touch, hc.tracks, Dict.contains_insert]
  · simp only [Store.size, Dict.size_insert]
    split
    · exact hc.bounded
    · rename_i hk
      have := hroom (Bool.not_eq_true _ ▸ hk)
      rw [capacity_cleared]
      exact this

/-! ## Who makes room -/

/-- The keys that make room for a new one: in a full store, a batch of those
that were used least recently. -/
def displaced (s : Store κ ν) (k : κ) : List κ :=
  if s.items.contains k = false ∧ s.size = s.capacity then s.recency.keys.take s.batch else []

/-- A store that holds no more than it has room for is full with exactly that. -/
theorem Sound.full_iff (h : s.Sound) (k : κ) : (!s.items.contains k && s.capacity ≤ s.items.size) = true ↔
    s.items.contains k = false ∧ s.size = s.capacity := by
  have hbound : s.items.size ≤ s.capacity := h.bounded
  simp only [Bool.and_eq_true, Bool.not_eq_true', decide_eq_true_eq, size]
  exact and_congr_right fun _ => by omega

theorem Sound.cleared_cases (h : s.Sound) (k : κ) :
    s.cleared k = s ∧ s.displaced k = [] ∨
      s.cleared k = s.prune ∧ s.displaced k = (s.recency.evictOldest s.batch).1 := by
  unfold Store.cleared displaced
  by_cases hfull : s.items.contains k = false ∧ s.size = s.capacity
  · rw [if_pos hfull, if_pos ((h.full_iff k).2 hfull)]
    exact .inr ⟨rfl, (s.recency.evictOldest_fst _).symm⟩
  · rw [if_neg hfull, if_neg fun hf => hfull ((h.full_iff k).1 hf)]
    exact .inl ⟨rfl, rfl⟩

theorem Sound.get?_set (h : s.Sound) (now : Instant) (k : κ) (v : ν) (lifetime : Option Duration) (k' : κ) :
    (s.set now k v lifetime).items.get? k' =
      if k' = k then some (.write now (lifetime.getD s.lifetime) v)
      else if k' ∈ s.displaced k then none else s.items.get? k' := by
  by_cases hk : k' = k
  · rw [hk, get?_set_self, if_pos rfl]
  · rw [if_neg hk, set_eq]
    refine (Dict.get?_insert_other _ _ hk).trans ?_
    rcases h.cleared_cases k with ⟨hc, hd⟩ | ⟨hc, hd⟩
    · rw [hc, hd, if_neg List.not_mem_nil]
    · rw [hc, hd]
      exact Dict.get?_eraseAll ..

/-- Each of them is counted. -/
theorem Sound.evictions_set_displaced (h : s.Sound) (now : Instant) (k : κ) (v : ν) (lifetime : Option Duration) :
    (s.set now k v lifetime).evictions = s.evictions + (s.displaced k).length := by
  change (s.cleared k).evictions = _
  rcases h.cleared_cases k with ⟨hc, hd⟩ | ⟨hc, hd⟩
  · rw [hc, hd]
    rfl
  · rw [hc, hd, h.evictions_prune]

theorem Sound.nodup_displaced (h : s.Sound) (k : κ) : (s.displaced k).Nodup := by
  rcases h.cleared_cases k with ⟨-, hd⟩ | ⟨-, hd⟩ <;> rw [hd]
  · exact .nil
  · exact h.recency.nodup_evicted _

/-- Each of them had an item, and it is not the new key. -/
theorem Sound.of_mem_displaced (h : s.Sound) {k k' : κ} (hk : k' ∈ s.displaced k) :
    k' ≠ k ∧ ∃ i, s.items.get? k' = some i := by
  unfold displaced at hk
  split at hk
  · rename_i hfull
    have hitem : s.items.contains k' = true := by
      rw [← h.tracks, ← h.recency.mem_keys]
      exact List.mem_of_mem_take hk
    refine ⟨fun he => ?_, ?_⟩
    · rw [he, hfull.1] at hitem
      cases hitem
    · rwa [Dict.contains_eq_isSome, Option.isSome_iff_exists] at hitem
  · cases hk

/-! ## With room to spare -/

/-- Where there is room for every key that may come, nobody has to leave. -/
theorem Sound.cleared_of_room (h : s.Sound) {keys : List κ} (hkeys : s.items.keys ⊆ keys)
    (hroom : keys.length ≤ s.capacity) {k : κ} (hk : k ∈ keys) : s.cleared k = s := by
  unfold Store.cleared
  split
  · rename_i hfull
    simp only [Bool.and_eq_true, Bool.not_eq_true', decide_eq_true_eq] at hfull
    -- The key would be one too many.
    have hnew : k ∉ s.items.keys := fun hm => by rw [Dict.mem_keys.1 hm] at hfull; cases hfull.1
    have hlength := (List.nodup_cons.2 ⟨hnew, h.nodup⟩).length_le_of_subset (List.cons_subset.2 ⟨hk, hkeys⟩)
    rw [List.length_cons, ← Dict.size_eq_length_keys] at hlength
    omega
  · rfl

theorem Sound.get?_set_of_room (h : s.Sound) {keys : List κ} (hkeys : s.items.keys ⊆ keys)
    (hroom : keys.length ≤ s.capacity) {k : κ} (hk : k ∈ keys) (now : Instant) (v : ν)
    (lifetime : Option Duration) (k' : κ) :
    (s.set now k v lifetime).items.get? k' =
      if k' = k then some (.write now (lifetime.getD s.lifetime) v) else s.items.get? k' := by
  rw [set_eq, h.cleared_of_room hkeys hroom hk]
  exact Dict.get?_insert ..

/-! ## What a purge removes -/

/-- The keys whose items have been expired for `grace` or longer. -/
def outlived (s : Store κ ν) (now : Instant) (grace : Duration) : List κ :=
  (s.items.entries.filter fun e => e.2.isExpired now && grace ≤ e.2.staleFor now).map (·.1)

theorem purge_eq (s : Store κ ν) (now : Instant) (grace : Duration) : s.purge now grace =
    ((s.outlived now grace).length, { s with
      items := s.items.eraseAll (s.outlived now grace)
      recency := (s.outlived now grace).foldl Recency.remove s.recency }) := rfl

theorem mem_outlived (h : s.items.keys.Nodup) {now : Instant} {grace : Duration} {k : κ} :
    k ∈ s.outlived now grace ↔
      ∃ i, s.items.get? k = some i ∧ (i.isExpired now && grace ≤ i.staleFor now) = true := by
  simp only [outlived, List.mem_map, List.mem_filter, Prod.exists, exists_and_right, exists_eq_right]
  simp only [Dict.mem_entries h]

/-- A purge removes what has been expired for long enough, and nothing else. -/
theorem get?_purge (h : s.items.keys.Nodup) (now : Instant) (grace : Duration) (k : κ) :
    (s.purge now grace).2.items.get? k =
      (s.items.get? k).filter fun i => !(i.isExpired now && grace ≤ i.staleFor now) := by
  simp only [purge_eq, Dict.get?_eraseAll, mem_outlived h]
  cases s.items.get? k with
  | none => simp
  | some i =>
    simp only [Option.some.injEq, exists_eq_left', Option.filter_some]
    cases (i.isExpired now && decide (grace ≤ i.staleFor now)) <;> rfl

end Store

end FizzService
