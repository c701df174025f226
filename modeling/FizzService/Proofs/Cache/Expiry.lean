/-
When items expire. A run makes each of its accesses at a time (`timedHistory`),
and what is on record is as it was made when its key was last written: it
expires a lifetime after that (`Stores.Dated`). Each access keeps that: a `put`
makes its item anew, and what any other access leaves was there before.

The clock of the model never ends. One that ends has no time for what expires
after its end, and an item that would expire then is given the time at which it
is written instead (`Item.writeWithin`); within the range of the clock the two
make the same item (`writeWithin_eq_iff`).
-/
import FizzService.Proofs.Cache.Filing

namespace FizzService

/-! ## Clocks that end -/

/-- The time a duration after `now` on a clock that ends at `last`. -/
def Instant.add? (last now : Instant) (d : Duration) : Option Instant :=
  if now + d ≤ last then some (now + d) else none

namespace Item

variable {ν : Type} {last now : Instant} {lifetime : Duration}

/-- An item written at `now` on a clock that ends at `last`. -/
def writeWithin (last now : Instant) (lifetime : Duration) (value : ν) : Item ν :=
  ⟨value, (Instant.add? last now (min lifetime Duration.century)).getD now⟩

/-- A lifetime of a century or less is not cut. -/
theorem write_of_le (h : lifetime ≤ Duration.century) (now : Instant) (v : ν) :
    write now lifetime v = ⟨v, now + lifetime⟩ := by
  rw [write, Nat.min_eq_left h]

/-- The end of the clock makes a difference to those items only that would expire after it. -/
theorem writeWithin_eq_iff (h : 0 < lifetime) (hcentury : lifetime ≤ Duration.century) (v : ν) :
    writeWithin last now lifetime v = write now lifetime v ↔ now + lifetime ≤ last := by
  rw [write_of_le hcentury, writeWithin, Nat.min_eq_left hcentury, Instant.add?]
  split
  · rename_i hin
    exact ⟨fun _ => hin, fun _ => rfl⟩
  · rename_i hout
    refine ⟨fun he => ?_, fun hin => (hout hin).elim⟩
    have hnow : now = now + lifetime := congrArg Item.expiresAt he
    exact absurd hnow (Nat.ne_of_lt (Nat.lt_add_of_pos_right h))

/-- The item of a lifetime that begins at `time`: it expires exactly when that is over, and a clock
that ends makes the same item if it is still running then. -/
structure LivesFrom (time : Instant) (lifetime : Duration) (i : Item ν) : Prop where
  expiresAt : i.expiresAt = time + lifetime
  within : ∀ last, i = .writeWithin last time lifetime i.value ↔ time + lifetime ≤ last

theorem livesFrom_write (h : 0 < lifetime) (hcentury : lifetime ≤ Duration.century) (time : Instant) (v : ν) :
    (write time lifetime v).LivesFrom time lifetime where
  expiresAt := by rw [write_of_le hcentury]
  within last := eq_comm.trans (writeWithin_eq_iff h hcentury v)

end Item

/-! ## The times of a history -/

/-- An access, and the time at which it is made. -/
structure TimedAccess where
  time : Instant
  access : Access

/-- The last access of a history that settled what is on record for a key wrote this body, at this
time. -/
def WrittenAt (history : List TimedAccess) (k : String) (body : ByteArray) (time : Instant) : Prop :=
  ∃ key before later, CacheKey.text key = k ∧ history = before ++ ⟨time, .put key body⟩ :: later ∧
    ∀ a ∈ later, ¬ a.access.Renews key

variable {history : List TimedAccess} {k : String} {body : ByteArray} {time : Instant}

theorem WrittenAt.put (history : List TimedAccess) (key : CacheKey) (body : ByteArray) (time : Instant) :
    WrittenAt (history ++ [⟨time, .put key body⟩]) key.text body time :=
  ⟨key, history, [], rfl, rfl, fun _ h => by cases h⟩

theorem WrittenAt.concat (h : WrittenAt history k body time) {a : TimedAccess}
    (ha : ∀ key : CacheKey, key.text = k → ¬ a.access.Renews key) : WrittenAt (history ++ [a]) k body time := by
  obtain ⟨key, before, later, hk, rfl, hlater⟩ := h
  refine ⟨key, before, later ++ [a], hk, by simp, fun a' ha' => ?_⟩
  rcases List.mem_append.1 ha' with hm | hm
  · exact hlater a' hm
  · rw [List.mem_singleton.1 hm]
    exact ha key hk

namespace Stores

variable {config : CacheConfig} {s : Stores}

/-- What is on record for a key is as it was made when the key was last written. -/
structure DatedAt (config : CacheConfig) (history : List TimedAccess) (s : Stores) (k : String) : Prop where
  entry : ∀ i, s.entryAt k = some i → ∃ time, WrittenAt history k i.value time ∧
    i = .write time config.entryTtl i.value
  negative : ∀ i, s.negativeAt k = some i → ∃ body time, WrittenAt history k body time ∧
    Negative.ofBody? config.maxAcceptedBytes.toNat body = some i.value ∧
    i = .write time config.negativeTtl i.value

/-- Every item on record is as it was made when its key was last written. -/
def Dated (config : CacheConfig) (history : List TimedAccess) (s : Stores) : Prop :=
  ∀ k, s.DatedAt config history k

theorem Dated.of_absent (h : ∀ k, s.Absent k) : s.Dated config [] :=
  fun k => ⟨fun i hi => (by cases (h k).1.symm.trans hi), fun i hi => (by cases (h k).2.symm.trans hi)⟩

theorem Dated.apply (h : s.Dated config history) (hs : s.Sound config) (now : Instant) (a : Access) :
    (a.apply config now s).Dated config (history ++ [⟨now, a⟩]) := by
  intro k
  rcases s.apply_cases config now a k with ⟨key, body, rfl, rfl⟩ | habsent | ⟨hother, hwithin⟩
  · have hself := s.put_self now config.maxAcceptedBytes.toNat key.text body
    rw [show s.entries.lifetime = config.entryTtl from congrArg (·.2.2) hs.entrySettings,
      show s.negatives.lifetime = config.negativeTtl from congrArg (·.2.2) hs.negativeSettings] at hself
    split at hself
    · rename_i record hrecord
      refine ⟨fun i hi => ?_, fun i hi => ?_⟩
      · cases hself.1.symm.trans hi
      · cases hself.2.symm.trans hi
        exact ⟨body, now, .put history key body now, hrecord, rfl⟩
    · refine ⟨fun i hi => ?_, fun i hi => ?_⟩
      · cases hself.1.symm.trans hi
        exact ⟨now, .put history key body now, rfl⟩
      · cases hself.2.symm.trans hi
  · exact ⟨fun i hi => (by cases habsent.1.symm.trans hi), fun i hi => (by cases habsent.2.symm.trans hi)⟩
  · refine ⟨fun i hi => ?_, fun i hi => ?_⟩
    · obtain ⟨time, hwritten, hmade⟩ := (h k).entry i (hwithin.entry i hi)
      exact ⟨time, hwritten.concat hother, hmade⟩
    · obtain ⟨body, time, hwritten, hrecord, hmade⟩ := (h k).negative i (hwithin.negative i hi)
      exact ⟨body, time, hwritten.concat hother, hrecord, hmade⟩

theorem Dated.replay (h : s.Dated config history) (hs : s.Sound config) (now : Instant)
    (accesses : List Access) :
    (s.replay config now accesses).Dated config (history ++ accesses.map (⟨now, ·⟩)) := by
  induction accesses generalizing history s with
  | nil =>
    rw [List.map_nil, List.append_nil]
    exact h
  | cons a accesses ih =>
    rw [List.map_cons, List.append_cons]
    exact ih (h.apply hs now a) (hs.apply now a)

end Stores

namespace Session

/-- The accesses to the stores that a run makes, in order, each with the time at which it is made. -/
def timedHistory (s : Session) : List Step → List TimedAccess
  | [] => []
  | t :: run => (s.stepAccesses t).map (⟨(s.next t).now, ·⟩) ++ (s.next t).timedHistory run

theorem access_timedHistory (s : Session) (run : List Step) :
    (s.timedHistory run).map (·.access) = s.history run := by
  induction run generalizing s with
  | nil => rfl
  | cons t run ih =>
    rw [timedHistory, history, List.map_append, List.map_map, ih]
    exact congrArg (· ++ _) (List.map_id _)

/-- The history that leads to a state dates what the stores hold there. -/
theorem Orderly.dated_after {s : Session} (hs : s.Orderly)
    (h : s.cache.stores.Dated s.cache.config history) (run : List Step) :
    (s.after run).cache.stores.Dated s.cache.config (history ++ s.timedHistory run) := by
  induction run generalizing s history with
  | nil =>
    rw [timedHistory, List.append_nil]
    exact h
  | cons t run ih =>
    rw [timedHistory, ← List.append_assoc, ← s.config_next t]
    refine ih (hs.next t) ?_
    rw [stores_next, config_next]
    exact h.replay hs.stores _ _

end Session

end FizzService
