/-
The filing of bodies: in every state that a cache comes to, each body is in the
store that its size calls for and in no other, within the bounds of the
configuration, and the tracker of each store is in step with it
(`Stores.Sound`). Each access keeps that, so every run does.

A body that has just been written is on record and fresh (`Stores.Filed`),
even if others had to leave for it: the room is made before the body is put in
its place.
-/
import FizzService.Proofs.Cache.Run

namespace FizzService

/-- What a negative result is where at most `accepted` bytes are accepted. -/
def Negative.Sound (accepted : Nat) (r : Negative) : Prop :=
  r.payload = .empty ∧ r.ignoresCache = false ∨ accepted < r.payload.size ∧ r.ignoresCache = true

theorem Negative.sound_ofBody? {accepted : Nat} {body : ByteArray} {r : Negative}
    (h : Negative.ofBody? accepted body = some r) : r.Sound accepted := by
  unfold Negative.ofBody? at h
  split at h
  · cases h
    exact .inl ⟨rfl, rfl⟩
  · split at h
    · rename_i hsize
      cases h
      exact .inr ⟨hsize, rfl⟩
    · cases h

namespace Stores

/-- The stores as a configuration wants them. -/
structure Sound (config : CacheConfig) (s : Stores) : Prop where
  entries : s.entries.Sound
  negatives : s.negatives.Sound
  disjoint : ∀ k, s.entryAt k = none ∨ s.negativeAt k = none
  accepted : ∀ k i, s.entryAt k = some i →
    1 ≤ i.value.size ∧ i.value.size ≤ config.maxAcceptedBytes.toNat
  refused : ∀ k i, s.negativeAt k = some i → i.value.Sound config.maxAcceptedBytes.toNat
  entrySettings : s.entries.settings =
    (ResponseCache.emptyStore config config.entryMaxSize config.entryTtl :
      Store String ByteArray).settings
  negativeSettings : s.negatives.settings =
    (ResponseCache.emptyStore config config.negativeMaxSize config.negativeTtl :
      Store String Negative).settings

/-- A body that is on record and fresh, in the store that its size calls for. -/
def Filed (accepted : Nat) (now : Instant) (s : Stores) (k : String) (body : ByteArray) : Prop :=
  if 1 ≤ body.size ∧ body.size ≤ accepted then
    ∃ i, s.entryAt k = some i ∧ i.value = body ∧ i.isExpired now = false
  else
    ∃ i, s.negativeAt k = some i ∧ i.isExpired now = false ∧
      i.value = if body.size = 0 then .empty else .oversized body

variable {config : CacheConfig} {s t : Stores}

/-! ## Each access keeps the invariant -/

theorem Sound.empty (config : CacheConfig) : Sound config
    ⟨ResponseCache.emptyStore config config.entryMaxSize config.entryTtl,
      ResponseCache.emptyStore config config.negativeMaxSize config.negativeTtl⟩ where
  entries := .new ..
  negatives := .new ..
  disjoint _ := .inl rfl
  accepted _ _ h := by cases h
  refused _ _ h := by cases h
  entrySettings := rfl
  negativeSettings := rfl

/-- Where nothing is added, only the stores themselves can go wrong. -/
theorem Sound.of_within (h : s.Sound config) (ht : t.Within s) (he : t.entries.Sound)
    (hn : t.negatives.Sound) (hes : t.entries.settings = s.entries.settings)
    (hns : t.negatives.settings = s.negatives.settings) : t.Sound config where
  entries := he
  negatives := hn
  disjoint k := by
    rcases h.disjoint k with hk | hk
    · exact .inl (eq_none_of_imp (ht k).entry hk)
    · exact .inr (eq_none_of_imp (ht k).negative hk)
  accepted k i hi := h.accepted k i ((ht k).entry i hi)
  refused k i hi := h.refused k i ((ht k).negative i hi)
  entrySettings := hes.trans h.entrySettings
  negativeSettings := hns.trans h.negativeSettings

theorem Sound.find (h : s.Sound config) (now : Instant) (k : String) : (s.find now k).2.Sound config := by
  have he : (s.find now k).2.entries.Sound ∧ (s.find now k).2.entries.settings = s.entries.settings := by
    rw [entries_find]
    exact ⟨h.entries.get now k, Store.settings_get ..⟩
  have hn : (s.find now k).2.negatives.Sound ∧
      (s.find now k).2.negatives.settings = s.negatives.settings := by
    rcases s.negatives_find now k with hf | hf | hf <;> rw [hf]
    · exact ⟨h.negatives, rfl⟩
    · exact ⟨h.negatives.get now k, Store.settings_get ..⟩
    · exact ⟨(h.negatives.get now k).delete k, by rw [Store.settings_delete, Store.settings_get]⟩
  exact h.of_within (s.find_within now k) he.1 hn.1 he.2 hn.2

theorem Sound.get (h : s.Sound config) (now : Instant) (k : String) : (s.get now k).2.Sound config := by
  have he : (s.get now k).2.entries.Sound ∧ (s.get now k).2.entries.settings = s.entries.settings := by
    rw [entries_get]
    exact ⟨h.entries.get now k, Store.settings_get ..⟩
  have hn : (s.get now k).2.negatives.Sound ∧
      (s.get now k).2.negatives.settings = s.negatives.settings := by
    rcases s.negatives_get now k with hf | hf <;> rw [hf]
    · exact ⟨h.negatives, rfl⟩
    · exact ⟨h.negatives.get now k, Store.settings_get ..⟩
  exact h.of_within (s.get_within now k) he.1 hn.1 he.2 hn.2

theorem Sound.negativeFlag (h : s.Sound config) (now : Instant) (k : String) :
    (s.negativeFlag now k).2.Sound config :=
  h.of_within (s.negativeFlag_within now k) h.entries (h.negatives.get now k) rfl (Store.settings_get ..)

theorem Sound.invalidate (h : s.Sound config) (k : String) : (s.invalidate k).2.Sound config :=
  h.of_within (s.invalidate_within k) (h.entries.delete k) (h.negatives.delete k)
    (Store.settings_delete ..) (Store.settings_delete ..)

theorem Sound.purge (h : s.Sound config) (now : Instant) (maxStale : Duration) :
    (s.purge now maxStale).2.Sound config :=
  h.of_within (s.purge_within now maxStale) (h.entries.purge now maxStale) (h.negatives.purge now 0)
    (Store.settings_purge ..) (Store.settings_purge ..)

/-- What a `put` leaves on record for its key comes from the body, and for any
other key it was there. -/
theorem Sound.put (h : s.Sound config) (now : Instant) (k : String) (body : ByteArray) :
    (s.put now config.maxAcceptedBytes.toNat k body).Sound config := by
  have hself := s.put_self now config.maxAcceptedBytes.toNat k body
  have hother := fun k' (hk : k' ≠ k) => s.put_other now config.maxAcceptedBytes.toNat body hk
  refine ⟨?_, ?_, fun k' => ?_, fun k' i hi => ?_, fun k' i hi => ?_, ?_, ?_⟩
  · unfold Stores.put
    split
    · exact h.entries.delete k
    · exact h.entries.set now k body none
  · unfold Stores.put
    split
    · exact h.negatives.set now k _ none
    · exact h.negatives.delete k
  · by_cases hk : k' = k
    · subst hk
      split at hself
      · exact .inl hself.1
      · exact .inr hself.2
    · rcases h.disjoint k' with hd | hd
      · exact .inl (eq_none_of_imp (hother k' hk).entry hd)
      · exact .inr (eq_none_of_imp (hother k' hk).negative hd)
  · by_cases hk : k' = k
    · subst hk
      split at hself
      · rw [hself.1] at hi
        cases hi
      · rename_i hbody
        rw [hself.1] at hi
        cases hi
        exact Negative.ofBody?_eq_none.1 hbody
    · exact h.accepted k' i ((hother k' hk).entry i hi)
  · by_cases hk : k' = k
    · subst hk
      split at hself
      · rename_i hbody
        rw [hself.2] at hi
        cases hi
        exact Negative.sound_ofBody? hbody
      · rw [hself.2] at hi
        cases hi
    · exact h.refused k' i ((hother k' hk).negative i hi)
  · rw [← h.entrySettings]
    unfold Stores.put
    split
    · exact Store.settings_delete ..
    · exact Store.settings_set ..
  · rw [← h.negativeSettings]
    unfold Stores.put
    split
    · exact Store.settings_set ..
    · exact Store.settings_delete ..

theorem Sound.apply (h : s.Sound config) (now : Instant) (a : Access) :
    (a.apply config now s).Sound config := by
  cases a with
  | find key => exact h.find now key.text
  | get key => exact h.get now key.text
  | flag key => exact h.negativeFlag now key.text
  | put key body => exact h.put now key.text body
  | remove key => exact h.invalidate key.text
  | purge => exact h.purge now config.maxStale

theorem Sound.replay (h : s.Sound config) (now : Instant) (accesses : List Access) :
    (s.replay config now accesses).Sound config := by
  induction accesses generalizing s with
  | nil => exact h
  | cons a accesses ih => exact ih (h.apply now a)

/-! ## What has just been written is on record -/

theorem isExpired_write {ν : Type} {lifetime : Duration} (h : 0 < lifetime) (now : Instant) (v : ν) :
    (Item.write now lifetime v).isExpired now = false := by
  have hcentury : 0 < Duration.century := by decide
  exact decide_eq_false (Nat.not_le.2 (Nat.lt_add_of_pos_right (Nat.lt_min.2 ⟨h, hcentury⟩)))

theorem Sound.filed_put (h : s.Sound config) (he : 0 < config.entryTtl) (hn : 0 < config.negativeTtl)
    {now : Instant} {k : String} {body : ByteArray} :
    (s.put now config.maxAcceptedBytes.toNat k body).Filed config.maxAcceptedBytes.toNat now k body := by
  have hself := s.put_self now config.maxAcceptedBytes.toNat k body
  have hes : s.entries.lifetime = config.entryTtl := congrArg (·.2.2) h.entrySettings
  have hns : s.negatives.lifetime = config.negativeTtl := congrArg (·.2.2) h.negativeSettings
  rw [hes, hns] at hself
  unfold Filed
  cases hb : Negative.ofBody? config.maxAcceptedBytes.toNat body with
  | none =>
    simp only [hb] at hself
    rw [if_pos (Negative.ofBody?_eq_none.1 hb)]
    exact ⟨_, hself.1, rfl, isExpired_write he now body⟩
  | some record =>
    simp only [hb] at hself
    rw [if_neg fun hsize => by simp [Negative.ofBody?_eq_none.2 hsize] at hb]
    refine ⟨_, hself.2, isExpired_write hn now record, ?_⟩
    unfold Negative.ofBody? at hb
    split at hb
    · rename_i hsize
      rw [if_pos hsize]
      exact (Option.some.inj hb).symm
    · rename_i hsize
      rw [if_neg hsize]
      split at hb
      · exact (Option.some.inj hb).symm
      · cases hb

/-- What a look-up makes of a body that has just been filed. -/
theorem Sound.find_filed {now : Instant} {k : String} {body : ByteArray}
    (h : s.Sound config) (hfiled : s.Filed config.maxAcceptedBytes.toNat now k body) :
    (s.find now k).1.outcome =
      if body.size ≤ config.maxAcceptedBytes.toNat then .served body else .bypass := by
  rw [find_fst]
  unfold Filed at hfiled
  split at hfiled
  · rename_i hsize
    obtain ⟨i, hi, rfl, -⟩ := hfiled
    rw [hi, if_pos hsize.2]
    rfl
  · rename_i hsize
    obtain ⟨i, hi, hfresh, hvalue⟩ := hfiled
    have hentry : s.entryAt k = none := (h.disjoint k).resolve_right (by rw [hi]; exact nofun)
    rw [hentry, hi]
    simp only [hfresh, Bool.false_eq_true, if_false, hvalue]
    split
    · rename_i hzero
      rw [if_pos (by omega), ByteArray.size_eq_zero_iff.1 hzero]
      rfl
    · rw [if_neg (by omega)]
      rfl

theorem Sound.fresh_of_filed {accepted : Nat} {now : Instant} {k : String}
    {body : ByteArray} (h : s.Sound config) (hfiled : s.Filed accepted now k body) {i : Item Negative}
    (hi : s.negativeAt k = some i) : i.isExpired now = false := by
  unfold Filed at hfiled
  split at hfiled
  · obtain ⟨i', hi', -⟩ := hfiled
    rcases h.disjoint k with hd | hd
    · cases hd.symm.trans hi'
    · cases hd.symm.trans hi
  · obtain ⟨i', hi', hfresh, -⟩ := hfiled
    cases hi'.symm.trans hi
    exact hfresh

end Stores

namespace CacheConfig

/-- What must not be zero is not made zero. -/
theorem lifetimes_pos {config : CacheConfig} (h : ∀ setting, config.isZero setting = false) :
    0 < config.clamped.entryTtl ∧ 0 < config.clamped.negativeTtl := by
  have hcentury : 0 < Duration.century := by decide
  have he := h .entryTtl
  have hn := h .negativeTtl
  simp only [isZero, beq_eq_false_iff_ne] at he hn
  exact ⟨Nat.lt_min.2 ⟨Nat.pos_of_ne_zero he, hcentury⟩, Nat.lt_min.2 ⟨Nat.pos_of_ne_zero hn, hcentury⟩⟩

theorem negativeMaxSize_pos {config : CacheConfig} (h : config.isZero .negativeMaxSize = false) :
    0 < config.negativeMaxSize.toNat := by
  simp only [isZero, beq_eq_false_iff_ne] at h
  exact Nat.pos_of_ne_zero fun hz => h (UInt64.toNat_inj.1 hz)

theorem toNat_max (a b : UInt64) : (max a b).toNat = max a.toNat b.toNat := by
  change (if a ≤ b then b else a).toNat = _
  rw [Nat.max_def, apply_ite UInt64.toNat]
  simp only [UInt64.le_iff_toNat_le]

theorem toNat_min (a b : UInt64) : (min a b).toNat = min a.toNat b.toNat := by
  change (if a ≤ b then a else b).toNat = _
  rw [Nat.min_def, apply_ite UInt64.toNat]
  simp only [UInt64.le_iff_toNat_le]

theorem toNat_entryMaxSize_clamped (config : CacheConfig) :
    config.clamped.entryMaxSize.toNat = max config.entryMaxSize.toNat 10 :=
  toNat_max config.entryMaxSize minEntries

end CacheConfig

namespace Session

/-- All that a run needs to keep the stores in order. -/
structure Orderly (s : Session) : Prop where
  stores : s.cache.stores.Sound s.cache.config
  entryTtl : 0 < s.cache.config.entryTtl
  negativeTtl : 0 < s.cache.config.negativeTtl

theorem Orderly.new {config : CacheConfig} {s : Session} (h : Session.new config = .ok s) : s.Orderly := by
  obtain ⟨hpos, queue, rfl⟩ := new_eq_ok h
  exact ⟨.empty _, (CacheConfig.lifetimes_pos hpos).1, (CacheConfig.lifetimes_pos hpos).2⟩

theorem Orderly.perform {s : Session} (h : s.Orderly) (a : Action) : (s.perform a).2.Orderly := by
  have hp := s.perform_performed a
  refine ⟨?_, hp.config ▸ h.entryTtl, hp.config ▸ h.negativeTtl⟩
  rw [hp.stores, hp.config]
  exact h.stores.replay _ _

theorem Orderly.settle {s : Session} (h : s.Orderly) : s.settle.2.Orderly := by
  refine ⟨?_, s.config_settle ▸ h.entryTtl, s.config_settle ▸ h.negativeTtl⟩
  rw [stores_settle, config_settle]
  exact h.stores.replay _ _

theorem Orderly.next {s : Session} (h : s.Orderly) (t : Step) : (s.next t).Orderly :=
  next_induction h (fun _ hs => hs.perform _) (fun _ hs => hs.settle) t

theorem Orderly.after {s : Session} (h : s.Orderly) (run : List Step) : (s.after run).Orderly :=
  after_induction h (fun _ a hs => hs.perform a) (fun _ hs => hs.settle) run

/-- The bounds that a configuration sets. -/
theorem Orderly.bounds {s : Session} (h : s.Orderly) {config : CacheConfig}
    (hconfig : s.cache.config = config.clamped) (hroom : config.isZero .negativeMaxSize = false) :
    s.cache.stores.entries.size ≤ max config.entryMaxSize.toNat 10 ∧
      s.cache.stores.negatives.size ≤ config.negativeMaxSize.toNat := by
  have he := h.stores.entries.bounded
  have hn := h.stores.negatives.bounded
  have hes := congrArg (·.1) h.stores.entrySettings
  have hns := congrArg (·.1) h.stores.negativeSettings
  simp only [Store.settings, ResponseCache.emptyStore, Store.new, hconfig] at hes hns
  rw [hes, config.toNat_entryMaxSize_clamped] at he
  rw [hns] at hn
  have hpos := CacheConfig.negativeMaxSize_pos hroom
  simp only [CacheConfig.clamped] at hn
  omega

/-- Whichever way a body is written, it is filed. -/
theorem Writes.filed {s : Session} {a : Action} {params : Params} {body : ByteArray} {c : ResponseCache}
    (hw : s.Writes a params body c) (h : s.Orderly) : c.stores.Filed s.cache.config.maxAcceptedBytes.toNat
      (s.perform a).2.now (CacheKey.ofParams params).text body := by
  -- The accesses of each end in the `put`.
  have last : ∀ {stores : Stores} {now : Instant} (accesses : List Access),
      stores = s.cache.stores.replay s.cache.config now (accesses ++ [.put (.ofParams params) body]) →
      stores.Filed s.cache.config.maxAcceptedBytes.toNat now (CacheKey.ofParams params).text body := by
    rintro stores now accesses rfl
    rw [Stores.replay, List.foldl_append]
    exact (h.stores.replay now accesses).filed_put h.entryTtl h.negativeTtl
  cases hw with
  | set => exact last [] rfl
  | finish id job body found owner ended =>
    refine last [] ?_
    rw [(s.perform_performed (.finish id)).stores]
    simp only [accesses, found, owner, ended, Role.writes, CacheKey.ofParams_params, List.nil_append]
  | fetch id params compute body owner ended =>
    refine last [.find (.ofParams params)] ?_
    rw [(s.perform_performed _).stores]
    simp only [accesses, owner, ended, Role.writes]
    rfl
  | refresh id params compute body free ended =>
    refine last [] ?_
    rw [(s.perform_performed _).stores]
    simp only [accesses, free, ended, Role.writes]
    rfl
  | work compute n key body round taken ended =>
    refine last (ResponseCache.roundsWrites s.now compute n s.cache) ?_
    rw [ResponseCache.stores_workOne, ResponseCache.config_workRounds, ResponseCache.stores_workRounds,
      ResponseCache.roundWrites, taken]
    simp only [ended, Role.writes, CacheKey.ofParams_params]
    exact (List.foldl_append ..).symm

/-- **The stores over whole runs.** In every state that a cache comes to, each
store has its bound, its tracker is in step with it, and what it holds belongs
there and nowhere else; and whatever has just been written is on record. -/
theorem stores_in_order {config : CacheConfig} {s₀ : Session} (h : Session.new config = .ok s₀)
    (run : List Step) :
    (s₀.after run).cache.config.maxAcceptedBytes = config.maxAcceptedBytes ∧
    (s₀.after run).cache.stores.Sound (s₀.after run).cache.config ∧
    (s₀.after run).cache.stores.entries.size ≤ max config.entryMaxSize.toNat 10 ∧
    (s₀.after run).cache.stores.negatives.size ≤ config.negativeMaxSize.toNat ∧
    ∀ a params body c, (s₀.after run).Writes a params body c →
      c.stores.Filed config.maxAcceptedBytes.toNat ((s₀.after run).perform a).2.now
        (CacheKey.ofParams params).text body := by
  have horderly : (s₀.after run).Orderly :=
    after_induction (.new h) (fun _ a hs => hs.perform a) (fun _ hs => hs.settle) run
  have hconfig : (s₀.after run).cache.config = config.clamped := by
    obtain ⟨-, queue, rfl⟩ := new_eq_ok h
    exact config_after ..
  have hbounds := horderly.bounds hconfig ((new_eq_ok h).1 .negativeMaxSize)
  refine ⟨by rw [hconfig]; rfl, horderly.stores, hbounds.1, hbounds.2, fun a params body c hw => ?_⟩
  have hfiled := hw.filed horderly
  rwa [hconfig] at hfiled

/-- A body of one byte is on record after it has been written a second time. -/
theorem stores_in_order_small : Session.new .small = .ok .small ∧
    ((small.after [⟨.set default ⟨#[7]⟩, true⟩]).perform
      (.set default ⟨#[7]⟩)).2.cache.stores.Filed 64 0 (CacheKey.ofParams default).text ⟨#[7]⟩ :=
  ⟨new_small,
    (stores_in_order new_small [⟨.set default ⟨#[7]⟩, true⟩]).2.2.2.2 _ _ _ _ (.set default ⟨#[7]⟩)⟩

end Session

end FizzService
