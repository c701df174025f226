/-
The stores, one access at a time. All the cache does to its stores is a
sequence of the accesses named here, each made in one piece; what one access
does to the record of a key is said once, and what a whole run does follows.

An access other than a `put` adds nothing: what is on record after it was on
record before. A `put` leaves its own key with the record its size calls for,
in one store only (`put_self`). So no access adds anything for a key that it
does not renew (`apply_other`).
-/
import FizzService.Config.Cache
import FizzService.Cache.Stores
import FizzService.Proofs.CacheKey
import FizzService.Proofs.Store.Bounded

namespace FizzService

/-- One access to the stores. -/
inductive Access where
  /-- The look-up of a fetch. -/
  | find (key : CacheKey)
  | get (key : CacheKey)
  | flag (key : CacheKey)
  | put (key : CacheKey) (body : ByteArray)
  /-- An invalidation. -/
  | remove (key : CacheKey)
  | purge

namespace Access

def apply (config : CacheConfig) (now : Instant) (s : Stores) : Access → Stores
  | find key => (s.find now key.text).2
  | get key => (s.get now key.text).2
  | flag key => (s.negativeFlag now key.text).2
  | put key body => s.put now config.maxAcceptedBytes.toNat key.text body
  | remove key => (s.invalidate key.text).2
  | purge => (s.purge now config.maxStale).2

/-- An access that settles anew what is on record for a key. -/
def Renews (key : CacheKey) : Access → Prop
  | put key' _ | remove key' => key' = key
  | _ => False

end Access

namespace Negative

variable {accepted : Nat} {body : ByteArray}

theorem ofBody?_eq_none : ofBody? accepted body = none ↔ 1 ≤ body.size ∧ body.size ≤ accepted := by
  unfold ofBody?
  split
  · simp; omega
  · split
    · simp; omega
    · simp; omega

theorem ofBody?_eq_empty : ofBody? accepted body = some .empty ↔ body = .empty := by
  rw [← ByteArray.size_eq_zero_iff]
  unfold ofBody?
  split
  · rename_i hsize
    exact ⟨fun _ => hsize, fun _ => rfl⟩
  · rename_i hsize
    split <;> exact ⟨(fun h => by cases h), fun h => (hsize h).elim⟩

end Negative

namespace Stores

/-- The entry of a key. -/
def entryAt (s : Stores) (k : String) : Option (Item ByteArray) := s.entries.items.get? k

/-- The negative result of a key. -/
def negativeAt (s : Stores) (k : String) : Option (Item Negative) := s.negatives.items.get? k

/-- All accesses in turn, at one time. -/
def replay (config : CacheConfig) (now : Instant) (s : Stores) (accesses : List Access) : Stores :=
  accesses.foldl (Access.apply config now) s

/-- A body is on record for a key, and may be served. -/
def Holds (s : Stores) (k : String) (body : ByteArray) : Prop :=
  (∃ i, s.entryAt k = some i ∧ i.value = body) ∨
    ∃ i, s.negativeAt k = some i ∧ i.value = .empty ∧ body = .empty

/-- Nothing is on record for a key. -/
def Absent (s : Stores) (k : String) : Prop := s.entryAt k = none ∧ s.negativeAt k = none

/-- Whatever is on record for a key in `s` is on record for it in `t`. -/
structure WithinAt (s t : Stores) (k : String) : Prop where
  entry : ∀ i, s.entryAt k = some i → t.entryAt k = some i
  negative : ∀ i, s.negativeAt k = some i → t.negativeAt k = some i

/-- Whatever is on record in `s` is on record in `t`. -/
def Within (s t : Stores) : Prop := ∀ k, s.WithinAt t k

/-! ## What a look-up touches -/

theorem entries_find (s : Stores) (now : Instant) (k : String) :
    (s.find now k).2.entries = (s.entries.get now k).2 := by
  unfold Stores.find
  rcases s.entries.get now k with ⟨_ | entry, entries⟩
  · rcases s.negatives.get now k with ⟨_ | negative, negatives⟩
    · rfl
    · simp only
      split <;> rfl
  · rfl

theorem negatives_find (s : Stores) (now : Instant) (k : String) :
    (s.find now k).2.negatives = s.negatives ∨
      (s.find now k).2.negatives = (s.negatives.get now k).2 ∨
      (s.find now k).2.negatives = ((s.negatives.get now k).2.delete k).2 := by
  unfold Stores.find
  rcases s.entries.get now k with ⟨_ | entry, entries⟩
  · rcases s.negatives.get now k with ⟨_ | negative, negatives⟩
    · exact .inr (.inl rfl)
    · simp only
      split
      · exact .inr (.inr rfl)
      · exact .inr (.inl rfl)
  · exact .inl rfl

theorem entries_get (s : Stores) (now : Instant) (k : String) :
    (s.get now k).2.entries = (s.entries.get now k).2 := by
  unfold Stores.get
  rcases s.entries.get now k with ⟨_ | entry, entries⟩
  · rcases s.negatives.get now k with ⟨_ | negative, negatives⟩ <;> rfl
  · rfl

theorem negatives_get (s : Stores) (now : Instant) (k : String) :
    (s.get now k).2.negatives = s.negatives ∨
      (s.get now k).2.negatives = (s.negatives.get now k).2 := by
  unfold Stores.get
  rcases s.entries.get now k with ⟨_ | entry, entries⟩
  · rcases s.negatives.get now k with ⟨_ | negative, negatives⟩ <;> exact .inr rfl
  · exact .inl rfl

/-! ## What a look-up finds -/

theorem find_fst (s : Stores) (now : Instant) (k : String) :
    (s.find now k).1 =
      match s.entryAt k, s.negativeAt k with
      | some i, _ => .entry i.value (i.isExpired now)
      | none, some i => if i.isExpired now then .nothing else .negative i.value
      | none, none => .nothing := by
  simp only [find, entryAt, negativeAt, Store.get]
  cases s.entries.items.get? k with
  | some i => rfl
  | none =>
    cases s.negatives.items.get? k with
    | some i => simp only; cases i.isExpired now <;> rfl
    | none => rfl

theorem get_fst (s : Stores) (now : Instant) (k : String) :
    (s.get now k).1 =
      match s.entryAt k, s.negativeAt k with
      | some i, _ => some i.value
      | none, some i => if i.isExpired now || i.value.ignoresCache then none else some i.value.payload
      | none, none => none := by
  simp only [get, entryAt, negativeAt, Store.get]
  cases s.entries.items.get? k with
  | some i => rfl
  | none => cases s.negatives.items.get? k <;> rfl

theorem negativeFlag_fst (s : Stores) (now : Instant) (k : String) :
    (s.negativeFlag now k).1 = (s.negativeAt k).map (·.value.ignoresCache) := by
  rw [negativeFlag, Store.get_fst, Option.map_map]
  rfl

theorem invalidate_fst (s : Stores) (k : String) :
    (s.invalidate k).1 = ((s.entryAt k).isSome || (s.negativeAt k).isSome) := by
  rw [invalidate, Store.delete_fst, Store.delete_fst]
  rfl

@[simp] theorem entryAt_find (s : Stores) (now : Instant) (k k' : String) :
    (s.find now k).2.entryAt k' = s.entryAt k' := by
  rw [entryAt, entries_find, Store.items_get]
  rfl

@[simp] theorem entryAt_get (s : Stores) (now : Instant) (k k' : String) :
    (s.get now k).2.entryAt k' = s.entryAt k' := by
  rw [entryAt, entries_get, Store.items_get]
  rfl

@[simp] theorem negativeAt_get (s : Stores) (now : Instant) (k k' : String) :
    (s.get now k).2.negativeAt k' = s.negativeAt k' := by
  rcases s.negatives_get now k with hn | hn
  · rw [negativeAt, hn]
    rfl
  · rw [negativeAt, hn, Store.items_get]
    rfl

/-- A look-up removes the negative result of its key if that has expired. -/
theorem negativeAt_find (s : Stores) (now : Instant) (k k' : String) :
    (s.find now k).2.negativeAt k' = s.negativeAt k' ∨
      k' = k ∧ (s.find now k).2.negativeAt k' = none ∧
        ∃ i, s.negativeAt k = some i ∧ i.isExpired now = true := by
  simp only [find, negativeAt, Store.get]
  cases s.entries.items.get? k with
  | some i => exact .inl rfl
  | none =>
    cases hn : s.negatives.items.get? k with
    | none => exact .inl rfl
    | some i =>
      simp only
      split
      · rename_i hx
        rw [Store.get?_delete]
        by_cases hk : k' = k
        · exact .inr ⟨hk, if_pos hk, i, rfl, hx⟩
        · exact .inl (if_neg hk)
      · exact .inl rfl

theorem negativeAt_find_self (s : Stores) (now : Instant) (k : String) : (s.find now k).2.negativeAt k =
    match s.entryAt k with
    | some _ => s.negativeAt k
    | none => (s.negativeAt k).filter fun i => !i.isExpired now := by
  simp only [find, negativeAt, entryAt, Store.get]
  cases s.entries.items.get? k with
  | some i => rfl
  | none =>
    cases hn : s.negatives.items.get? k with
    | none => simpa using hn
    | some i =>
      simp only [Option.filter_some]
      cases hx : i.isExpired now with
      | true => simp [Store.get?_delete]
      | false => simpa using hn

/-- What a look-up finds does not depend on the look-ups before it. -/
theorem find_find (s : Stores) (now : Instant) (k k' : String) :
    ((s.find now k).2.find now k').1 = (s.find now k').1 := by
  rw [find_fst, find_fst, entryAt_find]
  rcases s.negativeAt_find now k k' with h | ⟨rfl, hn, i, hi, hx⟩
  · rw [h]
  · rw [hn, hi]
    cases s.entryAt k' <;> simp [hx]

/-- What can be served without computing is on record. -/
theorem holds_of_get {s : Stores} {now : Instant} {k : String} {body : ByteArray}
    (h : (s.get now k).1 = some body) : s.Holds k body := by
  rw [get_fst] at h
  cases he : s.entryAt k with
  | some i =>
    simp only [he] at h
    exact .inl ⟨i, he, Option.some.inj h⟩
  | none =>
    cases hn : s.negativeAt k with
    | none => simp only [he, hn] at h; cases h
    | some i =>
      simp only [he, hn] at h
      split at h
      · cases h
      · rename_i hflag
        match hv : i.value with
        | .empty =>
          rw [hv] at h
          exact .inr ⟨i, hn, hv, (Option.some.inj h).symm⟩
        | .oversized _ => simp [hv, Negative.ignoresCache] at hflag

/-! ## What an access leaves on record -/

theorem find_within (s : Stores) (now : Instant) (k : String) : (s.find now k).2.Within s := by
  refine fun k' => ⟨fun i h => by rwa [entryAt_find] at h, fun i h => ?_⟩
  rcases s.negativeAt_find now k k' with he | ⟨-, hn, -⟩
  · rwa [he] at h
  · rw [hn] at h; cases h

theorem get_within (s : Stores) (now : Instant) (k : String) : (s.get now k).2.Within s :=
  fun _ => ⟨fun i h => by rwa [entryAt_get] at h, fun i h => by rwa [negativeAt_get] at h⟩

theorem negativeFlag_within (s : Stores) (now : Instant) (k : String) :
    (s.negativeFlag now k).2.Within s := by
  refine fun k' => ⟨fun i h => h, fun i h => ?_⟩
  simp only [negativeFlag, negativeAt, Store.items_get] at h
  exact h

theorem invalidate_within (s : Stores) (k : String) : (s.invalidate k).2.Within s := by
  intro k'
  constructor <;> intro i h
  · simp only [invalidate, entryAt, Store.get?_delete] at h
    split at h
    · cases h
    · exact h
  · simp only [invalidate, negativeAt, Store.get?_delete] at h
    split at h
    · cases h
    · exact h

theorem purge_within (s : Stores) (now : Instant) (maxStale : Duration) :
    (s.purge now maxStale).2.Within s :=
  fun _ => ⟨fun _ h => Store.get?_of_purge h, fun _ h => Store.get?_of_purge h⟩

/-- The key that is invalidated has no record left. -/
theorem invalidate_self (s : Stores) (k : String) : (s.invalidate k).2.Absent k := by
  simp [Absent, invalidate, entryAt, negativeAt, Store.get?_delete]

theorem put_self (s : Stores) (now : Instant) (accepted : Nat) (k : String) (body : ByteArray) :
    match Negative.ofBody? accepted body with
    | some record =>
      (s.put now accepted k body).entryAt k = none ∧
        (s.put now accepted k body).negativeAt k = some (.write now s.negatives.lifetime record)
    | none =>
      (s.put now accepted k body).entryAt k = some (.write now s.entries.lifetime body) ∧
        (s.put now accepted k body).negativeAt k = none := by
  unfold put entryAt negativeAt
  cases Negative.ofBody? accepted body with
  | some record => exact ⟨by rw [Store.get?_delete, if_pos rfl], Store.get?_set_self ..⟩
  | none => exact ⟨Store.get?_set_self .., by rw [Store.get?_delete, if_pos rfl]⟩

theorem put_other (s : Stores) (now : Instant) (accepted : Nat) {k k' : String} (body : ByteArray)
    (hk : k' ≠ k) : (s.put now accepted k body).WithinAt s k' := by
  unfold put
  cases Negative.ofBody? accepted body with
  | some record =>
    refine ⟨fun i h => ?_, fun i h => Store.get?_of_set hk h⟩
    rwa [entryAt, Store.get?_delete, if_neg hk] at h
  | none =>
    refine ⟨fun i h => Store.get?_of_set hk h, fun i h => ?_⟩
    rwa [negativeAt, Store.get?_delete, if_neg hk] at h

/-- An access to other keys, or one that only reads or removes, adds nothing
for a key. -/
theorem apply_other (config : CacheConfig) (now : Instant) (s : Stores) {a : Access} {key : CacheKey}
    (h : ¬ a.Renews key) : (a.apply config now s).WithinAt s key.text := by
  cases a with
  | find key' => exact s.find_within now key'.text _
  | get key' => exact s.get_within now key'.text _
  | flag key' => exact s.negativeFlag_within now key'.text _
  | put key' body => exact s.put_other now _ body fun he => h (CacheKey.ext_text he.symm)
  | remove key' => exact s.invalidate_within key'.text _
  | purge => exact s.purge_within now config.maxStale _

/-- An access writes a key, removes it, or adds nothing for it. -/
theorem apply_cases (config : CacheConfig) (now : Instant) (s : Stores) (a : Access) (k : String) :
    (∃ key body, a = .put key body ∧ key.text = k) ∨
    (a.apply config now s).Absent k ∨
    (∀ key : CacheKey, key.text = k → ¬ a.Renews key) ∧ (a.apply config now s).WithinAt s k := by
  cases a with
  | find key => exact .inr (.inr ⟨fun _ _ h => h, s.find_within now key.text k⟩)
  | get key => exact .inr (.inr ⟨fun _ _ h => h, s.get_within now key.text k⟩)
  | flag key => exact .inr (.inr ⟨fun _ _ h => h, s.negativeFlag_within now key.text k⟩)
  | purge => exact .inr (.inr ⟨fun _ _ h => h, s.purge_within now config.maxStale k⟩)
  | put key body =>
    by_cases hk : key.text = k
    · exact .inl ⟨key, body, rfl, hk⟩
    · refine .inr (.inr ⟨fun key' hk' hrenews => hk ?_, s.put_other now _ body (Ne.symm hk)⟩)
      exact (congrArg CacheKey.text hrenews).trans hk'
  | remove key =>
    by_cases hk : key.text = k
    · subst hk
      exact .inr (.inl (s.invalidate_self key.text))
    · refine .inr (.inr ⟨fun key' hk' hrenews => hk ?_, s.invalidate_within key.text k⟩)
      exact (congrArg CacheKey.text hrenews).trans hk'

/-! ## Keys off the record -/

variable {s t : Stores} {k : String} {key : CacheKey}

/-- Where nothing is added, nothing comes to be. -/
theorem eq_none_of_imp {α : Type} {found found' : Option α} (h : ∀ i, found' = some i → found = some i)
    (hnone : found = none) : found' = none := by
  cases found' with
  | none => rfl
  | some i => exact (h i rfl).symm.trans hnone

theorem Absent.of_within (h : s.Absent k) (ht : t.WithinAt s k) : t.Absent k :=
  ⟨eq_none_of_imp ht.entry h.1, eq_none_of_imp ht.negative h.2⟩

/-- Where nothing is on record, a look-up finds nothing and changes nothing. -/
theorem Absent.find_eq (h : s.Absent k) (now : Instant) : s.find now k = (.nothing, s) := by
  obtain ⟨he, hn⟩ := h
  rw [entryAt] at he
  rw [negativeAt] at hn
  simp only [find, Store.get, he, hn]

theorem Absent.find_fst (h : s.Absent k) (now : Instant) : (s.find now k).1 = .nothing :=
  congrArg Prod.fst (h.find_eq now)

/-- A look-up that finds nothing leaves nothing. -/
theorem absent_find {now : Instant} (h : (s.find now k).1 = .nothing) :
    (s.find now k).2.Absent k := by
  have hfound := s.find_fst now k
  rw [h] at hfound
  cases he : s.entryAt k with
  | some i => simp only [he] at hfound; cases hfound
  | none =>
    cases hn : s.negativeAt k with
    | none => exact Absent.of_within ⟨he, hn⟩ (s.find_within now k k)
    | some i =>
      simp only [he, hn] at hfound
      split at hfound
      · rename_i hx
        refine ⟨by rw [entryAt_find, he], ?_⟩
        simp only [entryAt, negativeAt] at he hn
        simp [find, negativeAt, Store.get, he, hn, hx, Store.get?_delete]
      · cases hfound

/-- Accesses that do not renew a key add nothing for it. -/
theorem replay_other {config : CacheConfig} {now : Instant} {accesses : List Access}
    (ha : ∀ a ∈ accesses, ¬ a.Renews key) : (s.replay config now accesses).WithinAt s key.text := by
  induction accesses generalizing s with
  | nil => exact ⟨fun _ hi => hi, fun _ hi => hi⟩
  | cons a accesses ih =>
    have hfirst := s.apply_other config now (ha a (.head _))
    have hrest := ih (s := a.apply config now s) fun a' ha' => ha a' (.tail _ ha')
    exact ⟨fun i hi => hfirst.entry i (hrest.entry i hi), fun i hi => hfirst.negative i (hrest.negative i hi)⟩

theorem Absent.replay (h : s.Absent key.text) {config : CacheConfig} {now : Instant}
    {accesses : List Access} (ha : ∀ a ∈ accesses, ¬ a.Renews key) : (s.replay config now accesses).Absent key.text :=
  h.of_within (replay_other ha)

theorem entryAt_replay_find {config : CacheConfig} {now : Instant} {k : String} (keys : List CacheKey) :
    (s.replay config now (keys.map .find)).entryAt k = s.entryAt k := by
  induction keys generalizing s with
  | nil => rfl
  | cons key keys ih => exact (ih (s := (s.find now key.text).2)).trans (entryAt_find ..)

/-- Look-ups leave the entries and the fresh negative results alone. -/
theorem replay_find {config : CacheConfig} {now : Instant} {k : String} (keys : List CacheKey)
    (hfresh : ∀ i, s.negativeAt k = some i → i.isExpired now = false) :
    (s.replay config now (keys.map .find)).entryAt k = s.entryAt k ∧
      (s.replay config now (keys.map .find)).negativeAt k = s.negativeAt k := by
  induction keys generalizing s with
  | nil => exact ⟨rfl, rfl⟩
  | cons key keys ih =>
    have hn : (s.find now key.text).2.negativeAt k = s.negativeAt k := by
      rcases s.negativeAt_find now key.text k with hn | ⟨rfl, -, i, hi, hx⟩
      · exact hn
      · rw [hfresh i hi] at hx
        cases hx
    have ih := ih (s := (s.find now key.text).2) (by rwa [hn])
    rw [entryAt_find, hn] at ih
    exact ih

end Stores

end FizzService
