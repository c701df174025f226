/-
The stores as one key sees them. Where there is room for every key that comes,
an access changes the record of a key only if it concerns that key, and then
in a way that depends on the record alone (`Sound.record_apply`). So of a
sequence of accesses only those count that concern the key
(`Sound.record_replay`), whatever is done to other keys in between.
-/
import FizzService.Proofs.Cache.Filing

namespace FizzService

/-- What is on record for one key. -/
structure Record where
  entry : Option (Item ByteArray)
  negative : Option (Item Negative)

/-- The record of a key. -/
def Stores.record (s : Stores) (k : String) : Record := ⟨s.entryAt k, s.negativeAt k⟩

/-- What a fetch finds. -/
def Record.finding (now : Instant) (r : Record) : Finding :=
  match r.entry, r.negative with
  | some i, _ => .entry i.value (i.isExpired now)
  | none, some i => if i.isExpired now then .nothing else .negative i.value
  | none, none => .nothing

namespace Access

/-- An access to a key, or to all keys. -/
def concerns (key : CacheKey) : Access → Bool
  | find key' | get key' | flag key' | put key' _ | remove key' => key'.text = key.text
  | purge => true

/-- What an access makes of the record of a key that it concerns. -/
def effect (config : CacheConfig) (now : Instant) (r : Record) : Access → Record
  | find _ =>
    match r.entry with
    | some _ => r
    | none => ⟨none, r.negative.filter fun i => !i.isExpired now⟩
  | get _ | flag _ => r
  | put _ body =>
    match Negative.ofBody? config.maxAcceptedBytes.toNat body with
    | some negative => ⟨none, some (.write now config.negativeTtl negative)⟩
    | none => ⟨some (.write now config.entryTtl body), none⟩
  | remove _ => ⟨none, none⟩
  | purge =>
    ⟨r.entry.filter fun i => !(i.isExpired now && config.maxStale ≤ i.staleFor now),
      r.negative.filter fun i => !(i.isExpired now && 0 ≤ i.staleFor now)⟩

end Access

/-- There is room for so many keys in either store. -/
structure CacheConfig.Roomy (config : CacheConfig) (n : Nat) : Prop where
  entries : n ≤ max config.entryMaxSize.toNat 1
  negatives : n ≤ max config.negativeMaxSize.toNat 1

namespace Stores

/-- Only the given keys are on record. -/
structure Confined (keys : List String) (s : Stores) : Prop where
  entries : s.entries.items.keys ⊆ keys
  negatives : s.negatives.items.keys ⊆ keys

variable {config : CacheConfig} {s : Stores} {keys : List String}

theorem find_record (s : Stores) (now : Instant) (k : String) : (s.find now k).1 = (s.record k).finding now :=
  s.find_fst now k

/-! ## One access -/

theorem mem_keys_entries {k : String} : k ∈ s.entries.items.keys ↔ s.entryAt k ≠ none := by
  rw [Dict.mem_keys, Dict.contains_eq_isSome, Option.isSome_iff_ne_none]
  rfl

theorem mem_keys_negatives {k : String} : k ∈ s.negatives.items.keys ↔ s.negativeAt k ≠ none := by
  rw [Dict.mem_keys, Dict.contains_eq_isSome, Option.isSome_iff_ne_none]
  rfl

theorem Sound.room (h : s.Sound config) {n : Nat} (hroom : config.Roomy n) :
    n ≤ s.entries.capacity ∧ n ≤ s.negatives.capacity := by
  have he := congrArg (·.1) h.entrySettings
  have hn := congrArg (·.1) h.negativeSettings
  simp only [Store.settings, ResponseCache.emptyStore, Store.new] at he hn
  rw [he, hn]
  exact ⟨hroom.entries, hroom.negatives⟩

/-- With room to spare, a `put` leaves the records of the other keys alone. -/
theorem Sound.record_put (h : s.Sound config) (hc : s.Confined keys) (hroom : config.Roomy keys.length)
    {k : String} (hk : k ∈ keys) (now : Instant) (body : ByteArray) (k' : String) :
    (s.put now config.maxAcceptedBytes.toNat k body).record k' =
      if k' = k then
        match Negative.ofBody? config.maxAcceptedBytes.toNat body with
        | some negative => ⟨none, some (.write now config.negativeTtl negative)⟩
        | none => ⟨some (.write now config.entryTtl body), none⟩
      else s.record k' := by
  have hes : s.entries.lifetime = config.entryTtl := congrArg (·.2.2) h.entrySettings
  have hns : s.negatives.lifetime = config.negativeTtl := congrArg (·.2.2) h.negativeSettings
  obtain ⟨heroom, hnroom⟩ := h.room hroom
  unfold Stores.put
  cases Negative.ofBody? config.maxAcceptedBytes.toNat body with
  | some negative =>
    simp only [record, entryAt, negativeAt, Store.get?_delete,
      h.negatives.get?_set_of_room hc.negatives hnroom hk, Option.getD_none, hns]
    split <;> rfl
  | none =>
    simp only [record, entryAt, negativeAt, Store.get?_delete,
      h.entries.get?_set_of_room hc.entries heroom hk, Option.getD_none, hes]
    split <;> rfl

/-- **One access**: a record changes only if the access concerns its key, and
then as the record alone has it. -/
theorem Sound.record_apply (h : s.Sound config) (hc : s.Confined keys) (hroom : config.Roomy keys.length)
    {a : Access} (ha : ∀ key body, a = .put key body → key.text ∈ keys) (now : Instant) (key : CacheKey) :
    (a.apply config now s).record key.text =
      if a.concerns key then a.effect config now (s.record key.text) else s.record key.text := by
  cases a with
  | find key' =>
    by_cases hk : key'.text = key.text
    · simp only [Access.apply, Access.concerns, Access.effect, hk, decide_true, if_true, record,
        entryAt_find, negativeAt_find_self]
      cases s.entryAt key.text <;> rfl
    · have hn := (s.negativeAt_find now key'.text key.text).resolve_right fun he => hk he.1.symm
      simp only [Access.apply, Access.concerns, hk, decide_false, Bool.false_eq_true, if_false, record,
        entryAt_find, hn]
  | get key' => simp only [Access.apply, Access.effect, record, entryAt_get, negativeAt_get, ite_self]
  | flag key' =>
    have hsame : (s.negativeFlag now key'.text).2.record key.text = s.record key.text := by
      simp only [Stores.negativeFlag, record, entryAt, negativeAt, Store.items_get]
    simp only [Access.apply, Access.effect, hsame, ite_self]
  | put key' body =>
    simp only [Access.apply, Access.concerns, Access.effect, decide_eq_true_eq]
    rw [h.record_put hc hroom (ha key' body rfl)]
    simp only [eq_comm (a := key'.text)]
  | remove key' =>
    simp only [Access.apply, Access.concerns, Access.effect, decide_eq_true_eq, Stores.invalidate, record, entryAt,
      negativeAt, Store.get?_delete, eq_comm (a := key'.text)]
    split <;> rfl
  | purge =>
    simp only [Access.apply, Access.concerns, Access.effect, if_true, Stores.purge, record, entryAt, negativeAt,
      Store.get?_purge h.entries.nodup, Store.get?_purge h.negatives.nodup]

/-- What is on record stays confined to the keys that are written. -/
theorem Confined.apply (hc : s.Confined keys) {a : Access}
    (ha : ∀ key body, a = .put key body → key.text ∈ keys) (now : Instant) :
    (a.apply config now s).Confined keys := by
  have hwithin : ∀ k, k ∈ keys ∨ (a.apply config now s).WithinAt s k := by
    intro k
    cases a with
    | find key => exact .inr (s.find_within now key.text k)
    | get key => exact .inr (s.get_within now key.text k)
    | flag key => exact .inr (s.negativeFlag_within now key.text k)
    | put key body =>
      by_cases hk : k = key.text
      · exact .inl (hk ▸ ha key body rfl)
      · exact .inr (s.put_other now _ body hk)
    | remove key => exact .inr (s.invalidate_within key.text k)
    | purge => exact .inr (s.purge_within now config.maxStale k)
  constructor <;> intro k hk
  · rcases hwithin k with hm | hw
    · exact hm
    · obtain ⟨i, hi⟩ := Option.ne_none_iff_exists'.1 (mem_keys_entries.1 hk)
      exact hc.entries (mem_keys_entries.2 (by rw [hw.entry i hi]; exact nofun))
  · rcases hwithin k with hm | hw
    · exact hm
    · obtain ⟨i, hi⟩ := Option.ne_none_iff_exists'.1 (mem_keys_negatives.1 hk)
      exact hc.negatives (mem_keys_negatives.2 (by rw [hw.negative i hi]; exact nofun))

/-! ## A sequence of accesses -/

theorem Confined.replay (hc : s.Confined keys) {accesses : List Access}
    (ha : ∀ key body, .put key body ∈ accesses → key.text ∈ keys) (now : Instant) :
    (s.replay config now accesses).Confined keys := by
  induction accesses generalizing s with
  | nil => exact hc
  | cons a accesses ih =>
    refine ih (hc.apply (fun key body he => ha key body (he ▸ .head _)) now) fun key body hm => ?_
    exact ha key body (.tail _ hm)

/-- **A sequence of accesses**: only those count that concern the key. -/
theorem Sound.record_replay (h : s.Sound config) (hc : s.Confined keys) (hroom : config.Roomy keys.length)
    {accesses : List Access} (ha : ∀ key body, .put key body ∈ accesses → key.text ∈ keys) (now : Instant)
    (key : CacheKey) : (s.replay config now accesses).record key.text =
      (accesses.filter (·.concerns key)).foldl (Access.effect config now) (s.record key.text) := by
  induction accesses generalizing s with
  | nil => rfl
  | cons a accesses ih =>
    have hfirst : ∀ key body, a = .put key body → key.text ∈ keys := fun key body he => ha key body (he ▸ .head _)
    have ih := ih (h.apply now a) (hc.apply hfirst now) fun key body hm => ha key body (.tail _ hm)
    rw [h.record_apply hc hroom hfirst now key] at ih
    refine ih.trans ?_
    rw [List.filter_cons]
    split <;> rfl

end Stores

end FizzService
