/-
A recency tracker is a list: its keys in the order of their last touch, each
once. Whatever is touched, removed and evicted, in whatever order, the tracker
answers as the list does (`answers_as_use_order`).

A tracker is in step with a list if it is sound and its order is that list
(`Follows`). One use keeps them in step (`Follows.apply`), so every sequence of
uses does, and a tracker in step gives the answers of its list
(`Follows.answers`).
-/
import FizzService.Proofs.Store.Recency

namespace FizzService

variable {κ : Type}

/-- Keys in the order of their last touch, the one touched last at the end. -/
structure UseOrder (κ : Type) where
  keys : List κ
  nodup : keys.Nodup

/-- What changes the order. -/
inductive Use (κ : Type) where
  | touch (key : κ)
  | remove (key : κ)
  /-- Takes out that many of the keys touched longest ago. -/
  | evict (count : Nat)

def Use.isTouch : Use κ → Bool
  | touch _ => true
  | _ => false

namespace UseOrder

def empty : UseOrder κ := ⟨[], .nil⟩

/-- The first `count` keys, or all if there are fewer, and the order of the rest. -/
def evict (o : UseOrder κ) (count : Nat) : List κ × UseOrder κ :=
  (o.keys.take (min count o.keys.length),
    ⟨o.keys.drop (min count o.keys.length), o.nodup.sublist (List.drop_sublist ..)⟩)

variable [DecidableEq κ]

def remove (o : UseOrder κ) (k : κ) : UseOrder κ := ⟨o.keys.filter (· ≠ k), o.nodup.filter _⟩

/-- The key comes last, wherever it stood before. -/
def touch (o : UseOrder κ) (k : κ) : UseOrder κ where
  keys := (o.remove k).keys ++ [k]
  nodup := List.nodup_append.2 ⟨(o.remove k).nodup, by simp, fun k' hk' k'' hk'' he => by
    rw [he, List.mem_singleton.1 hk''] at hk'
    simp [remove] at hk'⟩

def apply (o : UseOrder κ) : Use κ → UseOrder κ
  | .touch k => o.touch k
  | .remove k => o.remove k
  | .evict count => (o.evict count).2

/-- The order after all uses in turn. -/
def after (o : UseOrder κ) (uses : List (Use κ)) : UseOrder κ := uses.foldl apply o

end UseOrder

namespace Recency

variable [DecidableEq κ] {r : Recency κ} {o : UseOrder κ}

def apply (r : Recency κ) : Use κ → Recency κ
  | .touch k => r.touch k
  | .remove k => r.remove k
  | .evict count => (r.evictOldest count).2

/-- The tracker after all uses in turn. -/
def after (r : Recency κ) (uses : List (Use κ)) : Recency κ := uses.foldl apply r

/-- Takes out the key touched longest ago, `count` times over or until there is none. -/
def evictEach : Nat → Recency κ → List κ × Recency κ
  | 0, r => ([], r)
  | count + 1, r =>
    match r.order.entries with
    | [] => ([], r)
    | (_, k) :: rest =>
      let (gone, r) := evictEach count { r with order := ⟨rest⟩, ticks := r.ticks.erase k }
      (k :: gone, r)

/-- Whatever the tracker is asked, it answers by the order. -/
structure Answers (r : Recency κ) (o : UseOrder κ) : Prop where
  evicted : ∀ count, (r.evictOldest count).1 = (o.evict count).1
  oldest : r.oldest? = o.keys.head?
  size : r.size = o.keys.length
  isEmpty : r.isEmpty = o.keys.isEmpty
  contains : ∀ k, r.contains k = decide (k ∈ o.keys)

/-! ## The clock counts the touches -/

theorem clock_remove (r : Recency κ) (k : κ) : (r.remove k).clock = r.clock := by
  unfold Recency.remove
  split <;> rfl

theorem clock_apply (r : Recency κ) (u : Use κ) : (r.apply u).clock = r.clock + if u.isTouch then 1 else 0 := by
  cases u with
  | touch k | evict count => rfl
  | remove k => exact r.clock_remove k

theorem clock_after (r : Recency κ) (uses : List (Use κ)) :
    (r.after uses).clock = r.clock + uses.countP Use.isTouch := by
  induction uses generalizing r with
  | nil => rfl
  | cons u uses ih =>
    have hrest := ih (r.apply u)
    rw [r.clock_apply] at hrest
    rw [List.countP_cons, after, List.foldl_cons, ← after, hrest]
    omega

/-! ## Eviction -/

/-- To evict a batch is to take out its keys one by one. -/
theorem evictOldest_eq_evictEach (r : Recency κ) (count : Nat) : r.evictOldest count = evictEach count r := by
  induction count generalizing r with
  | zero => rfl
  | succ count ih =>
    obtain ⟨⟨entries⟩, ticks, clock⟩ := r
    cases entries with
    | nil => rfl
    | cons e rest =>
      simp only [evictEach, ← ih]
      rfl

/-! ## The tracker follows the order -/

/-- A tracker in step with an order. -/
structure Follows (r : Recency κ) (o : UseOrder κ) : Prop where
  sound : r.Sound
  keys : r.keys = o.keys

theorem Follows.empty : (Recency.empty : Recency κ).Follows .empty := ⟨.empty, rfl⟩

/-- **One use keeps the tracker in step.** -/
theorem Follows.apply (h : r.Follows o) (u : Use κ) : (r.apply u).Follows (o.apply u) := by
  cases u with
  | touch k =>
    refine ⟨h.sound.touch k, (h.sound.keys_touch k).trans ?_⟩
    rw [h.keys]
    rfl
  | remove k =>
    refine ⟨h.sound.remove k, (h.sound.keys_remove k).trans ?_⟩
    rw [h.keys]
    rfl
  | evict count =>
    refine ⟨h.sound.evictOldest count, (r.keys_evictOldest count).trans ?_⟩
    rw [h.keys]
    exact List.drop_eq_drop_min

theorem Follows.after (h : r.Follows o) (uses : List (Use κ)) : (r.after uses).Follows (o.after uses) := by
  induction uses generalizing r o with
  | nil => exact h
  | cons u uses ih => exact ih (h.apply u)

/-- As many keys have a tick as stand in the order. -/
theorem Sound.size_eq (h : r.Sound) : r.size = r.keys.length := by
  have hperm : r.ticks.keys.Perm r.keys := by
    rw [List.perm_ext_iff_of_nodup h.nodup h.nodup_keys]
    intro k
    rw [Dict.mem_keys, h.mem_keys]
    rfl
  rw [size, Dict.size_eq_length_keys]
  exact hperm.length_eq

theorem Follows.answers (h : r.Follows o) : r.Answers o where
  evicted count := by
    rw [evictOldest_fst, h.keys]
    exact List.take_eq_take_min
  oldest := by
    rw [← h.keys]
    exact List.head?_map.symm
  size := by rw [h.sound.size_eq, h.keys]
  isEmpty := by
    rw [Bool.eq_iff_iff, List.isEmpty_iff_length_eq_zero, ← h.keys, ← h.sound.size_eq]
    exact List.isEmpty_iff_length_eq_zero
  contains k := by
    rw [Bool.eq_iff_iff, ← h.sound.mem_keys, h.keys, decide_eq_true_eq]

/-- **A recency tracker is a list.** Whatever is touched, removed and evicted,
the tracker answers as the list of its keys in the order of their last touch
does: it evicts those at the front one by one, oldest first, and its oldest key,
its number of keys and who is among them are those of the list. Its two maps
stay inverse to each other, and no tick is ahead of the clock, which has come as
far as there were touches: fewer than 2 ^ 64 of them leave it within 64 bits. -/
theorem answers_as_use_order (uses : List (Use κ)) :
    let r := (Recency.empty : Recency κ).after uses
    r.Answers (UseOrder.empty.after uses) ∧
    (∀ count, r.evictOldest count = evictEach count r) ∧
    (∀ t k, r.order.get? t = some k ↔ r.ticks.get? k = some t) ∧
    (∀ t ∈ r.order.keys, t ≤ r.clock) ∧
    r.clock = uses.countP Use.isTouch := by
  intro r
  have hfollows : r.Follows (.after .empty uses) := Follows.empty.after uses
  have hclock : r.clock = 0 + uses.countP Use.isTouch := clock_after .empty uses
  rw [Nat.zero_add] at hclock
  exact ⟨hfollows.answers, r.evictOldest_eq_evictEach, hfollows.sound.inverse, hfollows.sound.bound, hclock⟩

/-- The key touched again is behind the other, which is the one that goes. -/
example : ((Recency.empty : Recency Nat).after [.touch 1, .touch 2, .touch 1, .evict 1]).keys = [1] := rfl

end Recency

end FizzService
