/-
Nothing is lost in silence. A record leaves the stores in one of a few ways,
and each of them has its reason: its key is written anew into the other store
or invalidated, it is too old at a purge, it is an expired negative result that
a fetch of its own key comes upon, or it is among those used least recently in
a full store that a new key comes to (`EntryLoss`, `NegativeLoss`). These ways
are all there are (`Sound.entry_lost_iff`, `Sound.negative_lost_iff`), and
whatever stays is as it was.

Only the last way is counted, and each record that goes it is counted once
(`Sound.evictions_displaced`).
-/
import FizzService.Proofs.Cache.Evictions

namespace FizzService

namespace CacheConfig

/-- A body that belongs among the entries. -/
def Accepts (config : CacheConfig) (body : ByteArray) : Prop :=
  1 ≤ body.size ∧ body.size ≤ config.maxAcceptedBytes.toNat

instance (config : CacheConfig) (body : ByteArray) : Decidable (config.Accepts body) :=
  inferInstanceAs (Decidable (_ ∧ _))

/-- A batch is never empty and never more than there is room for. -/
theorem pruneBatchFor_bounds (config : CacheConfig) (capacity : UInt64) :
    1 ≤ (config.pruneBatchFor capacity).toNat ∧
      (config.pruneBatchFor capacity).toNat ≤ max capacity.toNat 1 := by
  have hone : (1 : UInt64).toNat = 1 := rfl
  rw [pruneBatchFor]
  simp only [toNat_min, toNat_max, hone]
  omega

end CacheConfig

/-! ## The ways in which a record leaves -/

/-- Why the entry `i` of the key `k` leaves. -/
inductive EntryLoss (config : CacheConfig) (now : Instant) (s : Stores) (k : String) (i : Item ByteArray) :
    Access → Prop
  /-- An empty or an oversized body is written for its key. -/
  | rewritten (key : CacheKey) (body : ByteArray) (own : key.text = k) (refused : ¬ config.Accepts body) :
    EntryLoss config now s k i (.put key body)
  | invalidated (key : CacheKey) (own : key.text = k) : EntryLoss config now s k i (.remove key)
  | outlived (expired : i.isExpired now = true) (stale : config.maxStale ≤ i.staleFor now) :
    EntryLoss config now s k i .purge
  /-- It makes room for another key. -/
  | displaced (key : CacheKey) (body : ByteArray) (accepted : config.Accepts body)
    (oldest : k ∈ s.entries.displaced key.text) : EntryLoss config now s k i (.put key body)

/-- Why the negative result `i` of the key `k` leaves. -/
inductive NegativeLoss (config : CacheConfig) (now : Instant) (s : Stores) (k : String) (i : Item Negative) :
    Access → Prop
  /-- A body of an accepted size is written for its key. -/
  | rewritten (key : CacheKey) (body : ByteArray) (own : key.text = k) (accepted : config.Accepts body) :
    NegativeLoss config now s k i (.put key body)
  | invalidated (key : CacheKey) (own : key.text = k) : NegativeLoss config now s k i (.remove key)
  | outlived (expired : i.isExpired now = true) : NegativeLoss config now s k i .purge
  /-- A fetch of its key comes upon it. -/
  | lookedUp (key : CacheKey) (own : key.text = k) (expired : i.isExpired now = true) :
    NegativeLoss config now s k i (.find key)
  /-- It makes room for another key. -/
  | displaced (key : CacheKey) (body : ByteArray) (refused : ¬ config.Accepts body)
    (oldest : k ∈ s.negatives.displaced key.text) : NegativeLoss config now s k i (.put key body)

/-- The keys whose records make room for one that is put in. -/
def Access.displaced (config : CacheConfig) (s : Stores) : Access → List String
  | put key body =>
    if config.Accepts body then s.entries.displaced key.text else s.negatives.displaced key.text
  | _ => []

/-! ## What leaves one store -/

namespace Store

variable {κ ν : Type} [DecidableEq κ] {s : Store κ ν} {k : κ} {i : Item ν}

theorem lost_delete_iff (hi : s.items.get? k = some i) (key : κ) :
    (s.delete key).2.items.get? k = none ↔ key = k := by
  rw [get?_delete, hi, ite_eq_left_iff]
  simp [eq_comm]

theorem lost_purge_iff (h : s.items.keys.Nodup) (hi : s.items.get? k = some i) (now : Instant)
    (grace : Duration) :
    (s.purge now grace).2.items.get? k = none ↔ i.isExpired now = true ∧ grace ≤ i.staleFor now := by
  rw [get?_purge h, hi]
  simp

theorem Sound.lost_set_iff (h : s.Sound) (hi : s.items.get? k = some i) (now : Instant) (key : κ) (v : ν)
    (lifetime : Option Duration) :
    (s.set now key v lifetime).items.get? k = none ↔ k ∈ s.displaced key := by
  rw [h.get?_set, hi]
  constructor
  · intro hn
    split at hn
    · cases hn
    · split at hn
      · rename_i oldest
        exact oldest
      · cases hn
  · intro oldest
    rw [if_neg (h.of_mem_displaced oldest).1, if_pos oldest]

end Store

namespace Stores

variable {config : CacheConfig} {s : Stores} {k : String}

theorem put_of_accepts {body : ByteArray} (h : config.Accepts body) (s : Stores) (now : Instant) (key : String) :
    s.put now config.maxAcceptedBytes.toNat key body =
      ⟨s.entries.set now key body none, (s.negatives.delete key).2⟩ := by
  unfold Stores.put
  rw [Negative.ofBody?_eq_none.2 h]

theorem put_of_refused {body : ByteArray} (h : ¬ config.Accepts body) (s : Stores) (now : Instant) (key : String) :
    ∃ record, s.put now config.maxAcceptedBytes.toNat key body =
      ⟨(s.entries.delete key).2, s.negatives.set now key record none⟩ := by
  obtain ⟨record, hr⟩ := Option.ne_none_iff_exists'.1 fun hn => h (Negative.ofBody?_eq_none.1 hn)
  refine ⟨record, ?_⟩
  unfold Stores.put
  rw [hr]

/-! ## All the ways -/

theorem lost_iff_of_kept {α : Type} {found : Option α} {i : α} {lost : Prop} (hkept : found = some i)
    (hlost : ¬ lost) : found = none ↔ lost :=
  iff_of_false (by rw [hkept]; exact Option.some_ne_none i) hlost

/-- An entry leaves in one of the ways of `EntryLoss`, and in no other. -/
theorem Sound.entry_lost_iff (h : s.Sound config) (now : Instant) (a : Access) {i : Item ByteArray}
    (hi : s.entryAt k = some i) :
    (a.apply config now s).entryAt k = none ↔ EntryLoss config now s k i a := by
  cases a with
  | find key => exact lost_iff_of_kept ((entryAt_find ..).trans hi) nofun
  | get key => exact lost_iff_of_kept ((entryAt_get ..).trans hi) nofun
  | flag key => exact lost_iff_of_kept hi nofun
  | put key body =>
    show (s.put now config.maxAcceptedBytes.toNat key.text body).entries.items.get? k = none ↔ _
    by_cases ha : config.Accepts body
    · rw [put_of_accepts ha, h.entries.lost_set_iff hi]
      constructor
      · exact .displaced key body ha
      · intro hloss
        cases hloss with
        | rewritten _ _ _ refused => exact (refused ha).elim
        | displaced _ _ _ oldest => exact oldest
    · obtain ⟨record, hput⟩ := put_of_refused ha s now key.text
      rw [hput, Store.lost_delete_iff hi]
      constructor
      · intro own
        exact .rewritten key body own ha
      · intro hloss
        cases hloss with
        | rewritten _ _ own _ => exact own
        | displaced _ _ accepted _ => exact (ha accepted).elim
  | remove key =>
    refine (Store.lost_delete_iff hi key.text).trans ⟨.invalidated key, fun hloss => ?_⟩
    cases hloss with
    | invalidated _ own => exact own
  | purge =>
    refine (Store.lost_purge_iff h.entries.nodup hi now config.maxStale).trans ⟨fun hold => ?_, fun hloss => ?_⟩
    · exact .outlived hold.1 hold.2
    · cases hloss with
      | outlived expired stale => exact ⟨expired, stale⟩

/-- A negative result leaves in one of the ways of `NegativeLoss`, and in no other. -/
theorem Sound.negative_lost_iff (h : s.Sound config) (now : Instant) (a : Access) {i : Item Negative}
    (hi : s.negativeAt k = some i) :
    (a.apply config now s).negativeAt k = none ↔ NegativeLoss config now s k i a := by
  cases a with
  | find key =>
    show (s.find now key.text).2.negativeAt k = none ↔ _
    constructor
    · intro hn
      rcases s.negativeAt_find now key.text k with hsame | ⟨own, -, i', hi', expired⟩
      · cases hn.symm.trans (hsame.trans hi)
      · rw [← own, hi] at hi'
        cases hi'
        exact .lookedUp key own.symm expired
    · intro hloss
      cases hloss with
      | lookedUp _ own expired =>
        have hno : s.entryAt key.text = none :=
          (h.disjoint key.text).resolve_right (by rw [own, hi]; exact Option.some_ne_none i)
        rw [← own, negativeAt_find_self, hno]
        simp only
        rw [own, hi, Option.filter_some, expired]
        rfl
  | get key => exact lost_iff_of_kept ((negativeAt_get ..).trans hi) nofun
  | flag key => exact lost_iff_of_kept ((congrArg (Dict.get? · k) (Store.items_get ..)).trans hi) nofun
  | put key body =>
    show (s.put now config.maxAcceptedBytes.toNat key.text body).negatives.items.get? k = none ↔ _
    by_cases ha : config.Accepts body
    · rw [put_of_accepts ha, Store.lost_delete_iff hi]
      constructor
      · intro own
        exact .rewritten key body own ha
      · intro hloss
        cases hloss with
        | rewritten _ _ own _ => exact own
        | displaced _ _ refused _ => exact (refused ha).elim
    · obtain ⟨record, hput⟩ := put_of_refused ha s now key.text
      rw [hput, h.negatives.lost_set_iff hi]
      constructor
      · exact .displaced key body ha
      · intro hloss
        cases hloss with
        | rewritten _ _ _ accepted => exact (ha accepted).elim
        | displaced _ _ _ oldest => exact oldest
  | remove key =>
    refine (Store.lost_delete_iff hi key.text).trans ⟨.invalidated key, fun hloss => ?_⟩
    cases hloss with
    | invalidated _ own => exact own
  | purge =>
    refine (Store.lost_purge_iff h.negatives.nodup hi now 0).trans ⟨fun hold => .outlived hold.1, fun hloss => ?_⟩
    cases hloss with
    | outlived expired => exact ⟨expired, Nat.zero_le _⟩

/-! ## What stays -/

/-- Whatever stays is as it was, unless it is written anew. -/
theorem apply_within (config : CacheConfig) (now : Instant) (s : Stores) (a : Access)
    (ha : ∀ key body, a = .put key body → key.text ≠ k) : (a.apply config now s).WithinAt s k := by
  cases a with
  | find key => exact s.find_within now key.text k
  | get key => exact s.get_within now key.text k
  | flag key => exact s.negativeFlag_within now key.text k
  | put key body => exact s.put_other now _ body (ha key body rfl).symm
  | remove key => exact s.invalidate_within key.text k
  | purge => exact s.purge_within now config.maxStale k

/-- In the store that a body does not belong in, a write touches its own key only. -/
theorem put_across (config : CacheConfig) (now : Instant) (s : Stores) (key : CacheKey) (body : ByteArray)
    (hk : k ≠ key.text) :
    if config.Accepts body then ((Access.put key body).apply config now s).negativeAt k = s.negativeAt k
    else ((Access.put key body).apply config now s).entryAt k = s.entryAt k := by
  by_cases ha : config.Accepts body
  · rw [if_pos ha]
    show (s.put now config.maxAcceptedBytes.toNat key.text body).negatives.items.get? k = _
    rw [put_of_accepts ha]
    exact (Store.get?_delete ..).trans (if_neg hk)
  · rw [if_neg ha]
    show (s.put now config.maxAcceptedBytes.toNat key.text body).entries.items.get? k = _
    obtain ⟨record, hput⟩ := put_of_refused ha s now key.text
    rw [hput]
    exact (Store.get?_delete ..).trans (if_neg hk)

/-! ## What is counted -/

/-- An access adds to the count of the evictions those that it displaces. -/
theorem Sound.evictions_displaced (h : s.Sound config) (now : Instant) (a : Access) :
    (a.apply config now s).evictions = s.evictions + (a.displaced config s).length := by
  cases a with
  | put key body =>
    show (s.put now config.maxAcceptedBytes.toNat key.text body).evictions = _
    by_cases ha : config.Accepts body
    · rw [put_of_accepts ha, Access.displaced, if_pos ha]
      simp only [evictions, h.entries.evictions_set_displaced, Store.evictions_delete]
      omega
    · obtain ⟨record, hput⟩ := put_of_refused ha s now key.text
      rw [hput, Access.displaced, if_neg ha]
      simp only [evictions, h.negatives.evictions_set_displaced, Store.evictions_delete]
      omega
  | _ => exact evictions_apply_eq config now s fun _ _ hput => by cases hput

/-- None of them is counted twice. -/
theorem Sound.nodup_displaced (h : s.Sound config) (a : Access) : (a.displaced config s).Nodup := by
  cases a with
  | put key body =>
    by_cases ha : config.Accepts body
    · rw [Access.displaced, if_pos ha]
      exact h.entries.nodup_displaced key.text
    · rw [Access.displaced, if_neg ha]
      exact h.negatives.nodup_displaced key.text
  | _ => exact .nil

/-- Each of them had a record and has none any more. -/
theorem Sound.absent_of_displaced_entry (h : s.Sound config) (now : Instant) {key : CacheKey} {body : ByteArray}
    (ha : config.Accepts body) (hk : k ∈ s.entries.displaced key.text) :
    ¬ s.Absent k ∧ ((Access.put key body).apply config now s).Absent k := by
  obtain ⟨hother, i, hi⟩ := h.entries.of_mem_displaced hk
  have hacross := put_across config now s key body hother
  rw [if_pos ha] at hacross
  have hno : s.negativeAt k = none := (h.disjoint k).resolve_left (by rw [entryAt, hi]; exact Option.some_ne_none i)
  refine ⟨fun habsent => ?_, (h.entry_lost_iff now _ hi).2 (.displaced key body ha hk), hacross.trans hno⟩
  cases hi.symm.trans habsent.1

theorem Sound.absent_of_displaced_negative (h : s.Sound config) (now : Instant) {key : CacheKey} {body : ByteArray}
    (ha : ¬ config.Accepts body) (hk : k ∈ s.negatives.displaced key.text) :
    ¬ s.Absent k ∧ ((Access.put key body).apply config now s).Absent k := by
  obtain ⟨hother, i, hi⟩ := h.negatives.of_mem_displaced hk
  have hacross := put_across config now s key body hother
  rw [if_neg ha] at hacross
  have hno : s.entryAt k = none := (h.disjoint k).resolve_right (by rw [negativeAt, hi]; exact Option.some_ne_none i)
  refine ⟨fun habsent => ?_, hacross.trans hno, (h.negative_lost_iff now _ hi).2 (.displaced key body ha hk)⟩
  cases hi.symm.trans habsent.2

theorem Sound.absent_of_displaced (h : s.Sound config) (now : Instant) {a : Access}
    (hk : k ∈ a.displaced config s) : ¬ s.Absent k ∧ (a.apply config now s).Absent k := by
  cases a with
  | put key body =>
    by_cases ha : config.Accepts body
    · rw [Access.displaced, if_pos ha] at hk
      exact h.absent_of_displaced_entry now ha hk
    · rw [Access.displaced, if_neg ha] at hk
      exact h.absent_of_displaced_negative now ha hk
  | _ => cases hk

/-! ## The whole account -/

/-- The measures that a configuration sets. -/
structure Measured (config : CacheConfig) (s : Stores) : Prop where
  entryRoom : s.entries.capacity = config.entryMaxSize.toNat
  entryBatch : s.entries.batch = (config.pruneBatchFor config.entryMaxSize).toNat
  negativeRoom : s.negatives.capacity = config.negativeMaxSize.toNat
  negativeBatch : s.negatives.batch = (config.pruneBatchFor config.negativeMaxSize).toNat

theorem Sound.measured (h : s.Sound config) (he : 1 ≤ config.entryMaxSize.toNat)
    (hn : 1 ≤ config.negativeMaxSize.toNat) : s.Measured config := by
  have hes := h.entrySettings
  have hns := h.negativeSettings
  simp only [Store.settings, ResponseCache.emptyStore, Store.new, Prod.mk.injEq] at hes hns
  have heb := config.pruneBatchFor_bounds config.entryMaxSize
  have hnb := config.pruneBatchFor_bounds config.negativeMaxSize
  constructor <;> omega

/-- What an access does to the records that it comes upon. -/
structure Accounted (config : CacheConfig) (now : Instant) (s : Stores) (a : Access) : Prop where
  entry : ∀ k i, s.entryAt k = some i →
    ((a.apply config now s).entryAt k = none ↔ EntryLoss config now s k i a)
  negative : ∀ k i, s.negativeAt k = some i →
    ((a.apply config now s).negativeAt k = none ↔ NegativeLoss config now s k i a)
  others : ∀ k, (∀ key body, a = .put key body → key.text ≠ k) → (a.apply config now s).WithinAt s k
  across : ∀ key body, a = .put key body → ∀ k, k ≠ key.text →
    if config.Accepts body then (a.apply config now s).negativeAt k = s.negativeAt k
    else (a.apply config now s).entryAt k = s.entryAt k
  evictions : (a.apply config now s).evictions = s.evictions + (a.displaced config s).length
  once : (a.displaced config s).Nodup
  lost : ∀ k ∈ a.displaced config s, ¬ s.Absent k ∧ (a.apply config now s).Absent k

theorem Sound.accounted (h : s.Sound config) (now : Instant) (a : Access) : s.Accounted config now a where
  entry _ _ := h.entry_lost_iff now a
  negative _ _ := h.negative_lost_iff now a
  others _ := apply_within config now s a
  across key body ha k hk := by
    subst ha
    exact put_across config now s key body hk
  evictions := h.evictions_displaced now a
  once := h.nodup_displaced a
  lost _ := h.absent_of_displaced now

end Stores

namespace Session

/-- **No silent loss.** The stores of a cache change by accesses only, and in
every state that a run comes to, also between the accesses of one step, each
access loses records for the reasons named above and for no other, leaves all
others as they were, and counts those that it displaced. -/
theorem no_silent_loss {config : CacheConfig} {s₀ : Session} (h : Session.new config = .ok s₀) (run : List Step) :
    (∀ t, ((s₀.after run).next t).cache.stores = (s₀.after run).cache.stores.replay config.clamped
      ((s₀.after run).next t).now ((s₀.after run).stepAccesses t)) ∧
    ∀ now before a, ((s₀.after run).cache.stores.replay config.clamped now before).Measured config.clamped ∧
      ((s₀.after run).cache.stores.replay config.clamped now before).Accounted config.clamped now a := by
  have hconfig : (s₀.after run).cache.config = config.clamped := by
    obtain ⟨-, queue, rfl⟩ := new_eq_ok h
    exact config_after ..
  have hsound := ((Orderly.new h).after run).stores
  rw [hconfig] at hsound
  have hentries : 1 ≤ config.clamped.entryMaxSize.toNat := by
    rw [config.toNat_entryMaxSize_clamped]
    omega
  have hnegatives : 1 ≤ config.clamped.negativeMaxSize.toNat :=
    CacheConfig.negativeMaxSize_pos ((new_eq_ok h).1 .negativeMaxSize)
  refine ⟨fun t => ?_, fun now before a => ?_⟩
  · rw [stores_next, hconfig]
  · have hbefore := hsound.replay now before
    exact ⟨hbefore.measured hentries hnegatives, hbefore.accounted now a⟩

/-- A body that is too large for an entry takes the place of the one on record for its key. -/
theorem no_silent_loss_small :
    let s := (small.after [⟨.set default ⟨#[7]⟩, true⟩]).cache.stores
    let a : Access := .put (.ofParams default) ⟨.replicate 65 7⟩
    Session.new .small = .ok .small ∧
      ∃ i, s.entryAt (CacheKey.ofParams default).text = some i ∧
        EntryLoss CacheConfig.small.clamped 0 s (CacheKey.ofParams default).text i a := by
  intro s a
  obtain ⟨-, haccount⟩ := no_silent_loss new_small [⟨.set default ⟨#[7]⟩, true⟩]
  have hentry : s.entryAt (CacheKey.ofParams default).text = some ⟨⟨#[7]⟩, Duration.ofSeconds 60⟩ := by decide
  exact ⟨new_small, _, hentry, ((haccount 0 [] a).2.entry _ _ hentry).1 (by decide)⟩

end Session

end FizzService
