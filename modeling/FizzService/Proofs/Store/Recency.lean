/-
The recency tracker's invariant: its two maps are inverse to each other, the
first stands in the order of its ticks, and no tick lies ahead of the clock.
Every operation keeps it.

What a tracker tracks is read off the second map; `contains_touch`,
`contains_remove` and `contains_evictOldest` say what each operation does to
it. The oldest keys are there to be evicted as long as any are tracked
(`evictOldest_ne_nil`).
-/
import FizzService.Store.Recency

namespace FizzService

variable {κ : Type} [DecidableEq κ] {r : Recency κ}

/-- The two maps say the same, and every tick has been. -/
structure Recency.Sound (r : Recency κ) : Prop where
  inverse : ∀ t k, r.order.get? t = some k ↔ r.ticks.get? k = some t
  sorted : r.order.keys.Pairwise (· < ·)
  bound : ∀ t ∈ r.order.keys, t ≤ r.clock
  nodup : r.ticks.keys.Nodup

namespace Recency

theorem Sound.nodup_order (h : r.Sound) : r.order.keys.Nodup :=
  h.sorted.imp fun hlt => Nat.ne_of_lt hlt

theorem Sound.mem_order (h : r.Sound) {t : Nat} {k : κ} :
    (t, k) ∈ r.order.entries ↔ r.ticks.get? k = some t :=
  (Dict.mem_entries h.nodup_order).trans (h.inverse t k)

theorem Sound.empty : (Recency.empty : Recency κ).Sound :=
  ⟨fun _ _ => by simp [Recency.empty], .nil, fun _ ht => (List.not_mem_nil ht).elim, .nil⟩

/-! ## The order of use -/

/-- Who stands in the order is tracked. -/
theorem Sound.mem_keys (h : r.Sound) {k : κ} : k ∈ r.keys ↔ r.contains k = true := by
  rw [contains, Dict.contains_eq_isSome, Option.isSome_iff_exists]
  constructor
  · intro hk
    obtain ⟨⟨t, k⟩, he, rfl⟩ := List.mem_map.1 hk
    exact ⟨t, h.mem_order.1 he⟩
  · rintro ⟨t, ht⟩
    exact List.mem_map.2 ⟨(t, k), h.mem_order.2 ht, rfl⟩

/-- Nobody stands in the order twice. -/
theorem Sound.nodup_keys (h : r.Sound) : r.keys.Nodup := by
  have hsorted : r.order.entries.Pairwise fun e e' => e.1 < e'.1 := List.pairwise_map.1 h.sorted
  refine List.pairwise_map.2 (hsorted.imp_of_mem fun {e e'} he he' hlt hkey => ?_)
  -- One key would have two ticks.
  have htick := h.mem_order.1 he
  rw [hkey, h.mem_order.1 he'] at htick
  exact Nat.ne_of_gt hlt (Option.some.inj htick)

/-! ## Touching a key -/

/-- The order without the former tick of a key. -/
def without (r : Recency κ) (k : κ) : Dict Nat κ :=
  match r.ticks.get? k with
  | some former => r.order.erase former
  | none => r.order

theorem touch_eq (r : Recency κ) (k : κ) :
    r.touch k = ⟨(r.without k).insert (r.clock + 1) k, r.ticks.insert k (r.clock + 1), r.clock + 1⟩ :=
  rfl

theorem keys_without_subset (r : Recency κ) (k : κ) : (r.without k).keys.Sublist r.order.keys := by
  unfold without
  split
  · rw [Dict.keys_erase]
    exact List.filter_sublist
  · exact List.Sublist.refl _

/-- Without the former tick of `k`, the order leads to the other keys only. -/
theorem Sound.get?_without (h : r.Sound) (k : κ) (t : Nat) (k' : κ) :
    (r.without k).get? t = some k' ↔ k' ≠ k ∧ r.ticks.get? k' = some t := by
  unfold without
  split
  · rename_i former hf
    rw [Dict.get?_erase]
    by_cases ht : t = former
    · subst ht
      have hk : r.order.get? t = some k := (h.inverse t k).2 hf
      constructor
      · intro he; simp at he
      · rintro ⟨hne, hk'⟩
        rw [(h.inverse t k').2 hk'] at hk
        exact absurd (Option.some.inj hk) hne
    · rw [if_neg ht, h.inverse]
      refine ⟨fun hk' => ⟨fun he => ?_, hk'⟩, fun hk' => hk'.2⟩
      subst he
      rw [hf] at hk'
      exact ht (Option.some.inj hk').symm
  · rename_i hn
    rw [h.inverse]
    refine ⟨fun hk' => ⟨fun he => ?_, hk'⟩, fun hk' => hk'.2⟩
    rw [he, hn] at hk'
    cases hk'

theorem Sound.touch (h : r.Sound) (k : κ) : (r.touch k).Sound := by
  rw [touch_eq]
  -- The new tick is ahead of every tick in use, so its pair comes last.
  have hle : ∀ t ∈ (r.without k).keys, t ≤ r.clock :=
    fun t ht => h.bound t ((r.keys_without_subset k).subset ht)
  have hnew : r.clock + 1 ∉ (r.without k).keys := fun hm => by have := hle _ hm; omega
  have hkeys : ((r.without k).insert (r.clock + 1) k).keys = (r.without k).keys ++ [r.clock + 1] := by
    rw [Dict.keys_insert, if_neg (fun hc => hnew (Dict.mem_keys.2 hc))]
  refine ⟨fun t k' => ?_, ?_, ?_, Dict.nodup_keys_insert h.nodup k _⟩
  · simp only [Dict.get?_insert]
    by_cases ht : t = r.clock + 1
    · subst ht
      rw [if_pos rfl]
      constructor
      · intro hk
        rw [if_pos (Option.some.inj hk).symm]
      · intro hk
        split at hk
        · rename_i he; rw [he]
        · -- No key had the new tick before.
          have := h.bound _ (Dict.mem_keys.2 (by
            rw [Dict.contains_eq_isSome, (h.inverse _ _).2 hk]; rfl))
          omega
    · rw [if_neg ht, h.get?_without]
      by_cases hk : k' = k
      · simp [hk, Ne.symm ht]
      · simp [hk]
  · rw [hkeys, List.pairwise_append]
    refine ⟨h.sorted.sublist (r.keys_without_subset k), by simp, fun a ha b hb => ?_⟩
    rw [List.mem_singleton.1 hb]
    have := hle a ha
    omega
  · intro t ht
    simp only [hkeys, List.mem_append, List.mem_singleton] at ht ⊢
    rcases ht with ht | rfl
    · have := hle t ht; omega
    · exact Nat.le_refl _

@[simp] theorem contains_touch (r : Recency κ) (k k' : κ) :
    (r.touch k).contains k' = (k' = k || r.contains k') :=
  Dict.contains_insert ..

/-- Without the former tick of `k`, the order is that of the other keys. -/
theorem Sound.entries_without (h : r.Sound) (k : κ) :
    (r.without k).entries = r.order.entries.filter (·.2 ≠ k) := by
  unfold without
  split
  · rename_i former hf
    refine List.filter_congr fun e he => ?_
    have hmem := h.mem_order.1 he
    -- Its tick tells the key from all others.
    by_cases hk : e.2 = k
    · rw [hk, hf] at hmem
      simp [hk, Option.some.inj hmem]
    · have hne : e.1 ≠ former := by
        rintro rfl
        have htick := (h.inverse _ _).2 hf
        rw [(h.inverse _ _).2 hmem] at htick
        exact hk (Option.some.inj htick)
      simp [hk, hne]
  · rename_i hnone
    refine (List.filter_eq_self.2 fun e he => ?_).symm
    have hmem := h.mem_order.1 he
    exact decide_eq_true fun hk => by rw [hk, hnone] at hmem; cases hmem

/-- The key that is used comes last in the order of use, and no other key moves. -/
theorem Sound.keys_touch (h : r.Sound) (k : κ) : (r.touch k).keys = r.keys.filter (· ≠ k) ++ [k] := by
  have hnew : (r.without k).contains (r.clock + 1) = false := by
    rw [← Bool.not_eq_true, ← Dict.mem_keys]
    intro hm
    have := h.bound _ ((r.keys_without_subset k).subset hm)
    omega
  rw [touch_eq, keys, Dict.entries_insert hnew, h.entries_without, List.map_append, keys, List.filter_map]
  rfl

/-! ## Removing a key -/

theorem Sound.remove (h : r.Sound) (k : κ) : (r.remove k).Sound := by
  have hget := h.get?_without k
  have hsub := r.keys_without_subset k
  unfold Recency.remove
  unfold without at hget hsub
  split
  · rename_i tick hk
    rw [hk] at hget hsub
    refine ⟨fun t k' => ?_, h.sorted.sublist hsub, fun t ht => h.bound t (hsub.subset ht),
      Dict.nodup_keys_erase h.nodup k⟩
    rw [hget, Dict.get?_erase]
    by_cases hkk : k' = k <;> simp [hkk]
  · exact h

@[simp] theorem contains_remove (r : Recency κ) (k k' : κ) :
    (r.remove k).contains k' = (k' ≠ k && r.contains k') := by
  unfold Recency.remove
  split
  · exact Dict.contains_erase ..
  · rename_i hn
    by_cases h : k' = k
    · subst h; simp [contains, Dict.contains_eq_isSome, hn]
    · simp [h]

/-- No other key moves. -/
theorem Sound.keys_remove (h : r.Sound) (k : κ) : (r.remove k).keys = r.keys.filter (· ≠ k) := by
  have hwithout := h.entries_without k
  unfold without at hwithout
  unfold Recency.remove
  split
  · rename_i tick hk
    rw [hk] at hwithout
    rw [keys, hwithout, keys, List.filter_map]
    rfl
  · rename_i hnone
    rw [hnone] at hwithout
    refine (List.filter_eq_self.2 fun k' hk' => ?_).symm
    obtain ⟨e, he, rfl⟩ := List.mem_map.1 hk'
    rw [hwithout] at he
    exact (List.mem_filter.1 he).2

theorem Sound.foldl_remove (h : r.Sound) (ks : List κ) : (ks.foldl Recency.remove r).Sound := by
  induction ks generalizing r with
  | nil => exact h
  | cons k ks ih => exact ih (h.remove k)

theorem contains_foldl_remove (r : Recency κ) (ks : List κ) (k : κ) :
    (ks.foldl Recency.remove r).contains k = (k ∉ ks && r.contains k) := by
  induction ks generalizing r with
  | nil => simp
  | cons k' ks ih =>
    rw [List.foldl_cons, ih, contains_remove]
    by_cases h : k = k' <;> simp [h]

theorem Sound.keys_foldl_remove (h : r.Sound) (ks : List κ) :
    (ks.foldl Recency.remove r).keys = r.keys.filter (· ∉ ks) := by
  induction ks generalizing r with
  | nil => exact (List.filter_eq_self.2 fun k _ => by simp).symm
  | cons k ks ih =>
    rw [List.foldl_cons, ih (h.remove k), h.keys_remove, List.filter_filter]
    refine List.filter_congr fun k' _ => ?_
    simp [Bool.and_comm]

/-! ## Evicting the oldest keys -/

theorem evictOldest_fst (r : Recency κ) (n : Nat) : (r.evictOldest n).1 = r.keys.take n :=
  List.map_take ..

/-- Those that are left keep their order. -/
theorem keys_evictOldest (r : Recency κ) (n : Nat) : (r.evictOldest n).2.keys = r.keys.drop n :=
  List.map_drop ..

theorem contains_evictOldest (r : Recency κ) (n : Nat) (k : κ) :
    (r.evictOldest n).2.contains k = (k ∉ (r.evictOldest n).1 && r.contains k) :=
  Dict.contains_eraseAll ..

theorem mem_evictOldest {n : Nat} {k : κ} :
    k ∈ (r.evictOldest n).1 ↔ ∃ t, (t, k) ∈ r.order.entries.take n := by
  simp only [evictOldest, List.mem_map, Prod.exists, exists_eq_right]

/-- No key is evicted twice. -/
theorem Sound.nodup_evicted (h : r.Sound) (n : Nat) : (r.evictOldest n).1.Nodup := by
  rw [r.evictOldest_fst]
  exact h.nodup_keys.sublist (List.take_sublist ..)

/-- Only tracked keys are evicted. -/
theorem Sound.contains_of_evicted (h : r.Sound) {n : Nat} {k : κ} (hk : k ∈ (r.evictOldest n).1) :
    r.contains k = true := by
  obtain ⟨t, ht⟩ := mem_evictOldest.1 hk
  rw [contains, Dict.contains_eq_isSome, h.mem_order.1 (List.mem_of_mem_take ht)]
  rfl

theorem Sound.evictOldest_ne_nil (h : r.Sound) {n : Nat} (hn : 1 ≤ n) {k : κ}
    (hk : r.contains k = true) : (r.evictOldest n).1 ≠ [] := by
  rw [contains, Dict.contains_eq_isSome, Option.isSome_iff_exists] at hk
  obtain ⟨t, ht⟩ := hk
  have hm := h.mem_order.2 ht
  intro he
  simp only [evictOldest, List.map_eq_nil_iff, List.take_eq_nil_iff] at he
  rcases he with he | he
  · omega
  · rw [he] at hm; cases hm

theorem Sound.evictOldest (h : r.Sound) (n : Nat) : (r.evictOldest n).2.Sound := by
  have hdrop : ((⟨r.order.entries.drop n⟩ : Dict Nat κ).keys).Sublist r.order.keys :=
    (List.drop_sublist ..).map _
  have hnodup : ((⟨r.order.entries.drop n⟩ : Dict Nat κ).keys).Nodup := h.nodup_order.sublist hdrop
  refine ⟨fun t k => ?_, h.sorted.sublist hdrop, fun t ht => h.bound t (hdrop.subset ht),
    Dict.nodup_keys_eraseAll h.nodup _⟩
  refine (Dict.mem_entries hnodup).symm.trans ?_
  change (t, k) ∈ r.order.entries.drop n ↔ (r.ticks.eraseAll (r.evictOldest n).1).get? k = some t
  rw [Dict.get?_eraseAll]
  -- A pair stands in one part of the order only, since its tick does.
  have hpair : ∀ t', (t', k) ∈ r.order.entries.take n → (t, k) ∈ r.order.entries.drop n → False := by
    intro t' ht' hd
    have he : t' = t := by
      have h1 := h.mem_order.1 (List.mem_of_mem_take ht')
      rw [h.mem_order.1 (List.mem_of_mem_drop hd)] at h1
      exact (Option.some.inj h1).symm
    subst he
    have hnd := h.nodup_order
    rw [Dict.keys, ← List.take_append_drop n r.order.entries, List.map_append, List.nodup_append] at hnd
    exact hnd.2.2 t' (List.mem_map_of_mem ht') t' (List.mem_map_of_mem hd) rfl
  constructor
  · intro hd
    rw [if_neg fun hk => ?_]
    · exact h.mem_order.1 (List.mem_of_mem_drop hd)
    · obtain ⟨t', ht'⟩ := mem_evictOldest.1 hk
      exact hpair t' ht' hd
  · intro hk
    split at hk
    · cases hk
    · rename_i hgone
      have hm := h.mem_order.2 hk
      rw [← List.take_append_drop n r.order.entries, List.mem_append] at hm
      rcases hm with hm | hm
      · exact absurd (mem_evictOldest.2 ⟨t, hm⟩) hgone
      · exact hm

end Recency

end FizzService
