/-
The count of the evictions. A write to a full store pushes items of other keys
out, and no other access does: what is deleted, expired or written to the other
store is not evicted. The keys that each access pushes out are told by what has
an item before it and none after it; the count is the number of them over the
whole run (`evictions_after`).

The count itself is taken from the keys that the tracker gives up, whether or
not they have an item. So that they all do, and that none of them is given up
twice, is what the count rests on (`Sound.nodup_displaced`, `Sound.evictions_set`).
-/
import FizzService.Proofs.Cache.Filing

namespace FizzService

namespace Store

variable {κ ν : Type} [DecidableEq κ] {s : Store κ ν}

/-- The keys other than `k` that have an item in `s` and none in `t`. -/
def pushedOut (s t : Store κ ν) (k : κ) : List κ :=
  s.items.keys.filter fun k' => k' ≠ k && !t.items.contains k'

/-- Only the key itself is deleted. -/
theorem pushedOut_delete (s : Store κ ν) (k : κ) : s.pushedOut (s.delete k).2 k = [] := by
  refine List.filter_eq_nil_iff.2 fun k' hk' => ?_
  have hgone : (s.delete k).2.items.contains k' = (k' ≠ k && s.items.contains k') := by
    rw [Dict.contains_eq_isSome, get?_delete, Dict.contains_eq_isSome]
    by_cases hk : k' = k <;> simp [hk]
  rw [hgone, Dict.mem_keys.1 hk']
  by_cases hk : k' = k <;> simp [hk]

/-- A write pushes out those that make room for it. -/
theorem Sound.mem_pushedOut_set (h : s.Sound) (now : Instant) (k : κ) (v : ν) (lifetime : Option Duration) (k' : κ) :
    k' ∈ s.pushedOut (s.set now k v lifetime) k ↔ k' ∈ s.displaced k := by
  rw [pushedOut, List.mem_filter, Dict.mem_keys, Dict.contains_eq_isSome, Dict.contains_eq_isSome, h.get?_set]
  constructor
  · rintro ⟨hitem, hout⟩
    obtain ⟨hother, hgone⟩ := Bool.and_eq_true_iff.1 hout
    rw [if_neg (of_decide_eq_true hother)] at hgone
    refine Classical.byContradiction fun hstays => ?_
    rw [if_neg hstays, hitem] at hgone
    cases hgone
  · intro hout
    obtain ⟨hother, i, hi⟩ := h.of_mem_displaced hout
    rw [if_neg hother, if_pos hout, hi]
    simp [hother]

/-- A write counts the others that it pushes out. -/
theorem Sound.evictions_set (h : s.Sound) (now : Instant) (k : κ) (v : ν) (lifetime : Option Duration) :
    (s.set now k v lifetime).evictions = s.evictions + (s.pushedOut (s.set now k v lifetime) k).length := by
  have hmem := h.mem_pushedOut_set now k v lifetime
  have hnodup : (s.pushedOut (s.set now k v lifetime) k).Nodup := h.nodup.sublist List.filter_sublist
  rw [h.evictions_set_displaced]
  exact congrArg (s.evictions + ·) <| Nat.le_antisymm
    ((h.nodup_displaced k).length_le_of_subset fun k' hk' => (hmem k').2 hk')
    (hnodup.length_le_of_subset fun k' hk' => (hmem k').1 hk')

end Store

namespace Stores

/-- The evictions of both stores. -/
def evictions (s : Stores) : Nat := s.entries.evictions + s.negatives.evictions

/-- The keys other than `k` that have a record in a store of `s` and none in the same store of `t`. -/
def pushedOut (s t : Stores) (k : String) : List String :=
  s.entries.pushedOut t.entries k ++ s.negatives.pushedOut t.negatives k

end Stores

/-- The keys whose records an access pushes out: other records than its own have to make room for
one that is put in. -/
def Access.pushedOut (config : CacheConfig) (now : Instant) (s : Stores) : Access → List String
  | put key body => s.pushedOut ((put key body).apply config now s) key.text
  | _ => []

namespace Stores

/-- The keys whose records are pushed out by all accesses in turn, at one time. -/
def allPushedOut (config : CacheConfig) (now : Instant) (s : Stores) : List Access → List String
  | [] => []
  | a :: accesses => a.pushedOut config now s ++ allPushedOut config now (a.apply config now s) accesses

variable {config : CacheConfig} {s : Stores}

theorem Sound.evictions_put (h : s.Sound config) (now : Instant) (accepted : Nat) (k : String) (body : ByteArray) :
    (s.put now accepted k body).evictions =
      s.evictions + (s.pushedOut (s.put now accepted k body) k).length := by
  unfold Stores.put
  split
  · simp only [evictions, pushedOut, Store.evictions_delete, Store.pushedOut_delete,
      h.negatives.evictions_set, List.nil_append]
    omega
  · simp only [evictions, pushedOut, Store.evictions_delete, Store.pushedOut_delete,
      h.entries.evictions_set, List.append_nil]
    omega

theorem evictions_find (s : Stores) (now : Instant) (k : String) : (s.find now k).2.evictions = s.evictions := by
  rw [evictions, entries_find]
  rcases s.negatives_find now k with hn | hn | hn <;> rw [hn] <;> simp [evictions]

theorem evictions_get (s : Stores) (now : Instant) (k : String) : (s.get now k).2.evictions = s.evictions := by
  rw [evictions, entries_get]
  rcases s.negatives_get now k with hn | hn <;> rw [hn] <;> simp [evictions]

/-- Only a `put` adds to the count. -/
theorem evictions_apply_eq (config : CacheConfig) (now : Instant) (s : Stores) {a : Access}
    (ha : ∀ key body, a ≠ .put key body) : (a.apply config now s).evictions = s.evictions := by
  cases a with
  | find key => exact evictions_find ..
  | get key => exact evictions_get ..
  | flag key => simp [Access.apply, Stores.negativeFlag, evictions]
  | put key body => exact (ha key body rfl).elim
  | remove key => simp [Access.apply, Stores.invalidate, evictions]
  | purge => rfl

/-- What an access adds to the count. -/
theorem Sound.evictions_apply (h : s.Sound config) (now : Instant) (a : Access) :
    (a.apply config now s).evictions = s.evictions + (a.pushedOut config now s).length := by
  cases a with
  | put key body => exact h.evictions_put ..
  | _ => exact evictions_apply_eq config now s fun _ _ hput => by cases hput

theorem Sound.evictions_replay (h : s.Sound config) (now : Instant) (accesses : List Access) :
    (s.replay config now accesses).evictions = s.evictions + (s.allPushedOut config now accesses).length := by
  induction accesses generalizing s with
  | nil => rfl
  | cons a accesses ih =>
    have hrest := ih (h.apply now a)
    rw [h.evictions_apply] at hrest
    rw [allPushedOut, List.length_append, ← Nat.add_assoc]
    exact hrest

end Stores

namespace Session

/-- The keys whose records a run pushes out, step by step. -/
def pushedOut (s : Session) : List Step → List String
  | [] => []
  | t :: run => s.cache.stores.allPushedOut s.cache.config (s.next t).now (s.stepAccesses t) ++ (s.next t).pushedOut run

/-- The count of the evictions over a run. -/
theorem Orderly.evictions_after {s : Session} (h : s.Orderly) (run : List Step) :
    (s.after run).cache.stores.evictions = s.cache.stores.evictions + (s.pushedOut run).length := by
  induction run generalizing s with
  | nil => rfl
  | cons t run ih =>
    have hrest := ih (h.next t)
    rw [stores_next, h.stores.evictions_replay] at hrest
    rw [pushedOut, List.length_append, ← Nat.add_assoc]
    exact hrest

end Session

end FizzService
