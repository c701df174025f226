/-
A cache that only one compute function writes to is faithful to it: whatever
may be served for a key is what that function returns for its parameters
(`Stores.Faithful`). A fetch, the refresh worker and a purge keep that.

So a fetch answers as the compute function itself would (`fetch_faithful`),
whether it finds a fresh or a stale entry, an empty or an oversized result, or
nothing at all.
-/
import FizzService.Proofs.Cache.Perform

namespace FizzService

variable {compute : Compute} {config : CacheConfig} {now : Instant} {s t : Stores}

namespace Stores

/-- What may be served for a key is what the compute function returns for it. -/
def Faithful (compute : Compute) (s : Stores) : Prop :=
  ∀ (key : CacheKey) (body : ByteArray), s.Holds key.text body → compute key.params = .body body

theorem Holds.of_within {k : String} {body : ByteArray} (h : t.Holds k body) (ht : t.WithinAt s k) :
    s.Holds k body := by
  rcases h with ⟨i, hi, hvalue⟩ | ⟨i, hi, hvalue, hbody⟩
  · exact .inl ⟨i, ht.entry i hi, hvalue⟩
  · exact .inr ⟨i, ht.negative i hi, hvalue, hbody⟩

theorem Absent.not_holds {k : String} {body : ByteArray} (h : s.Absent k) : ¬ s.Holds k body := by
  rintro (⟨i, hi, -⟩ | ⟨i, hi, -⟩)
  · rw [h.1] at hi; cases hi
  · rw [h.2] at hi; cases hi

/-- A `put` leaves its own body to be served, or none. -/
theorem eq_of_holds_put {accepted : Nat} {k : String} {body body' : ByteArray}
    (h : (s.put now accepted k body).Holds k body') : body' = body := by
  have hself := s.put_self now accepted k body
  rcases h with ⟨i, hi, rfl⟩ | ⟨i, hi, hempty, rfl⟩
  · split at hself
    · rw [hself.1] at hi
      cases hi
    · rw [hself.1] at hi
      cases hi
      rfl
  · split at hself
    · rename_i record hrecord
      rw [hself.2] at hi
      cases hi
      cases hempty
      exact (Negative.ofBody?_eq_empty.1 hrecord).symm
    · rw [hself.2] at hi
      cases hi

theorem Faithful.apply (h : s.Faithful compute) (config : CacheConfig) (now : Instant) {a : Access}
    (hput : ∀ key body, a = .put key body → compute key.params = .body body) :
    (a.apply config now s).Faithful compute := by
  intro key body hholds
  by_cases ha : a.Renews key
  · cases a with
    | put key' body' =>
      cases ha
      rw [eq_of_holds_put hholds]
      exact hput key body' rfl
    | remove key' =>
      cases ha
      exact ((s.invalidate_self key.text).not_holds hholds).elim
    | find | get | flag | purge => cases ha
  · exact h key body (hholds.of_within (s.apply_other config now ha))

theorem Faithful.replay (h : s.Faithful compute) {accesses : List Access}
    (hput : ∀ key body, .put key body ∈ accesses → compute key.params = .body body) :
    (s.replay config now accesses).Faithful compute := by
  induction accesses generalizing s with
  | nil => exact h
  | cons a accesses ih =>
    refine ih (h.apply _ _ fun key body he => hput key body (he ▸ .head _)) fun key body hm => ?_
    exact hput key body (.tail _ hm)

end Stores

namespace ResponseCache

variable {c : ResponseCache} {key : CacheKey}

theorem lookup_faithful (h : c.stores.Faithful compute) (now : Instant) (key : CacheKey) :
    (c.lookup now key).2.stores.Faithful compute := by
  rw [stores_lookup]
  exact h.apply c.config now (a := .find key) (fun _ _ he => by cases he)

/-- A computation answers with its outcome, and files nothing else. -/
theorem run_faithful (h : c.stores.Faithful compute) (role : Role) :
    (c.run now key role compute).1 = (compute key.params).answer ∧
      (c.run now key role compute).2.stores.Faithful compute := by
  refine ⟨rfl, ?_⟩
  simp only [run, stores_finish]
  refine Stores.Faithful.replay h fun key' body hm => ?_
  obtain ⟨-, rfl, hbody⟩ := Session.mem_writes.1 hm
  exact hbody

/-- **A fetch answers as the compute function does.** -/
theorem fetch_faithful (h : c.stores.Faithful compute) (now : Instant) (key : CacheKey) :
    (c.fetch now key compute).1 = (compute key.params).answer ∧
      (c.fetch now key compute).2.stores.Faithful compute := by
  have hlookup := lookup_faithful h now key
  have hserved : ∀ body, (c.lookup now key).1 = .served body → c.stores.Holds key.text body :=
    fun _ => c.holds_of_lookup now key
  have henter := c.enter_eq now key
  generalize c.lookup now key = looked at hlookup hserved henter
  obtain ⟨found, c'⟩ := looked
  rw [fetch, henter]
  cases found with
  | served body =>
    refine ⟨?_, hlookup⟩
    rw [h key body (hserved body rfl)]
    rfl
  | bypass => exact run_faithful hlookup .alone
  | missing =>
    by_cases hk : c.gate.isInFlight key.text = true
    · simp only [hk, if_true]
      exact run_faithful (c := (c'.count .miss).count .coalescedWait) hlookup .alone
    · simp only [hk]
      exact run_faithful (c := { c'.count .miss with gate := _ }) hlookup .owner

theorem work_faithful (h : c.stores.Faithful compute) : (c.work now compute).stores.Faithful compute := by
  unfold work
  rw [stores_workRounds]
  refine h.replay fun key body hm => ?_
  obtain ⟨-, -, -, hbody⟩ := Session.mem_roundsWrites.1 hm
  exact hbody

theorem purge_faithful (h : c.stores.Faithful compute) : (c.purge now).2.stores.Faithful compute :=
  h.apply c.config now (a := .purge) (fun _ _ he => by cases he)

theorem new_faithful {config : CacheConfig} (h : ResponseCache.new config = .ok c) :
    c.stores.Faithful compute := by
  obtain ⟨-, queue, -, rfl⟩ := new_eq_ok.1 h
  exact fun key body hholds => (Stores.Absent.not_holds ⟨rfl, rfl⟩ hholds).elim

end ResponseCache

end FizzService
