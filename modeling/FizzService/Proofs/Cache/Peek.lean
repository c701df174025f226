/-
To get a key and to fetch it are two look-ups, written apart: one reads both
stores and leaves it at that, the other removes what has expired, asks for a
refresh of what is stale and goes on to compute. They agree on what can be
served (`Stores.get_eq_find`): what is got is what a fetch would be served
without computing, and nothing is got where a fetch would have to compute, or
to wait for another that does (`get_agrees_with_fetch`).

And to get a key is to look only: what it leaves is what was there but for the
place of the key in the order of use (`Store.SameBut`).
-/
import FizzService.Proofs.Cache.Filing

namespace FizzService

/-! ## What is left -/

namespace Store

variable {κ ν : Type} [DecidableEq κ]

/-- All is the same but the place of `k` in the order of use. -/
structure SameBut (k : κ) (s t : Store κ ν) : Prop where
  rest : t = { s with recency := t.recency }
  order : t.recency.keys.filter (· ≠ k) = s.recency.keys.filter (· ≠ k)
  tracked : ∀ k', t.recency.contains k' = s.recency.contains k'

variable {s : Store κ ν}

theorem SameBut.refl (k : κ) (s : Store κ ν) : SameBut k s s := ⟨rfl, rfl, fun _ => rfl⟩

theorem Sound.sameBut_get (h : s.Sound) (now : Instant) (k : κ) : SameBut k s (s.get now k).2 := by
  unfold Store.get
  split
  · rename_i i hi
    refine ⟨rfl, ?_, fun k' => ?_⟩
    · show (s.recency.touch k).keys.filter _ = _
      rw [h.recency.keys_touch, List.filter_append, List.filter_filter]
      simp
    · show (s.recency.touch k).contains k' = _
      have hk : s.recency.contains k = true := by
        rw [h.tracks, Dict.contains_eq_isSome, hi]
        rfl
      rw [Recency.contains_touch]
      by_cases he : k' = k
      · simp [he, hk]
      · simp [he]
  · exact .refl k s

end Store

namespace Stores

variable {config : CacheConfig} {s : Stores}

theorem Sound.sameBut_get (h : s.Sound config) (now : Instant) (k : String) :
    s.entries.SameBut k (s.get now k).2.entries ∧ s.negatives.SameBut k (s.get now k).2.negatives := by
  rw [entries_get]
  refine ⟨h.entries.sameBut_get now k, ?_⟩
  rcases s.negatives_get now k with hn | hn
  · rw [hn]
    exact .refl k _
  · rw [hn]
    exact h.negatives.sameBut_get now k

end Stores

/-! ## What is found -/

/-- The body that is served. -/
def Lookup.body? : Lookup → Option ByteArray
  | served body => some body
  | bypass | missing => none

/-- The two look-ups serve the same. -/
theorem Stores.get_eq_find (s : Stores) (now : Instant) (k : String) :
    (s.get now k).1 = (s.find now k).1.outcome.body? := by
  rw [get_fst, find_fst]
  cases s.entryAt k with
  | some i => rfl
  | none =>
    cases s.negativeAt k with
    | none => rfl
    | some i =>
      simp only
      cases i.isExpired now with
      | true => rfl
      | false => cases i.value <;> rfl

namespace Session

/-- A fetch cannot be served: it computes for all who want its key, or on its
own, or it waits for the owner of its key. -/
inductive Unserved (s : Session) (id : CallId) (params : Params) (compute : Compute) (hold : Bool) : Prop
  | owner (free : s.cache.gate.isInFlight (CacheKey.ofParams params).text = false)
    (called : s.calls (.fetch id params compute hold) = [(.ofParams params, compute)])
    (reply : (s.perform (.fetch id params compute hold)).1 =
      .call (if hold then .computing .owner else .done (Purpose.fetch.answer (compute params))))
  | alone (called : s.calls (.fetch id params compute hold) = [(.ofParams params, compute)])
    (reply : (s.perform (.fetch id params compute hold)).1 =
      .call (if hold then .computing .alone else .done (Purpose.alone.answer (compute params))))
  | waits (taken : s.cache.gate.isInFlight (CacheKey.ofParams params).text = true)
    (called : s.calls (.fetch id params compute hold) = [])
    (reply : (s.perform (.fetch id params compute hold)).1 = .call .waiting)

/-- The session `t` is `s` but for the place of a key in the order of use. -/
structure SameBut (k : String) (s t : Session) : Prop where
  rest : t = { s with cache := { s.cache with stores := t.cache.stores } }
  entries : s.cache.stores.entries.SameBut k t.cache.stores.entries
  negatives : s.cache.stores.negatives.SameBut k t.cache.stores.negatives

variable {s : Session}

theorem Orderly.sameBut_get (h : s.Orderly) (params : Params) :
    s.SameBut (CacheKey.ofParams params).text (s.perform (.get params)).2 := by
  have hsame := h.stores.sameBut_get s.now (CacheKey.ofParams params).text
  exact ⟨rfl, hsame.1, hsame.2⟩

/-- What is got is what a fetch would be served. -/
theorem perform_get_fst (s : Session) (params : Params) :
    (s.perform (.get params)).1 = .body (s.cache.lookup s.now (.ofParams params)).1.body? := by
  show Reply.body (s.cache.stores.get s.now (CacheKey.ofParams params).text).1 = _
  rw [Stores.get_eq_find, ResponseCache.lookup_fst]

/-- A fetch is served at once and calls nothing, or it is not served. -/
theorem served_or_unserved (s : Session) (id : CallId) (params : Params) (compute : Compute) (hold : Bool) :
    (∃ body, (s.cache.lookup s.now (.ofParams params)).1.body? = some body ∧
      (s.perform (.fetch id params compute hold)).1 = .call (.done (.body body)) ∧
      s.calls (.fetch id params compute hold) = []) ∨
    (s.cache.lookup s.now (.ofParams params)).1.body? = none ∧ s.Unserved id params compute hold := by
  have henter := s.cache.enter_eq s.now (.ofParams params)
  have hreply : (s.perform (.fetch id params compute hold)).1 =
      .call (s.fetch id (.ofParams params) compute hold).1 := rfl
  have hfetch := s.fetch_fst id (.ofParams params) compute hold
  rw [CacheKey.params_ofParams] at hfetch
  cases hl : (s.cache.lookup s.now (.ofParams params)).1 with
  | served body =>
    rw [hl] at henter
    rw [henter] at hfetch
    exact .inl ⟨body, rfl, by rw [hreply, hfetch], by simp only [calls, henter]⟩
  | bypass =>
    rw [hl] at henter
    rw [henter] at hfetch
    exact .inr ⟨rfl, .alone (by simp only [calls, henter]) (by rw [hreply, hfetch])⟩
  | missing =>
    rw [hl] at henter
    cases hk : s.cache.gate.isInFlight (CacheKey.ofParams params).text with
    | true =>
      simp only [hk, if_true] at henter
      rw [henter] at hfetch
      exact .inr ⟨rfl, .waits hk (by simp only [calls, henter]) (by rw [hreply, hfetch])⟩
    | false =>
      simp only [hk, Bool.false_eq_true, if_false] at henter
      rw [henter] at hfetch
      exact .inr ⟨rfl, .owner hk (by simp only [calls, henter]) (by rw [hreply, hfetch])⟩

/-- A fetch that is not served has called its compute function, or it waits. -/
theorem Unserved.not_served {id : CallId} {params : Params} {compute : Compute} {hold : Bool}
    (h : s.Unserved id params compute hold) (body : ByteArray) :
    ¬ ((s.perform (.fetch id params compute hold)).1 = .call (.done (.body body)) ∧
      s.calls (.fetch id params compute hold) = []) := by
  rintro ⟨hreply, hcalls⟩
  cases h with
  | owner _ called _ | alone called _ => cases hcalls.symm.trans called
  | waits _ _ reply => cases hreply.symm.trans reply

/-- **To get a key and to fetch it agree.** In every state that a cache comes
to, a body is got if and only if a fetch of the key would be answered with it at
once, without a call of its compute function; nothing is got if and only if the
fetch would compute or wait. What was there is still there when a key has been
got. -/
theorem get_agrees_with_fetch {config : CacheConfig} {s₀ : Session} (h : Session.new config = .ok s₀)
    (run : List Step) (id : CallId) (params : Params) (compute : Compute) (hold : Bool) :
    (∀ body, ((s₀.after run).perform (.get params)).1 = .body (some body) ↔
      ((s₀.after run).perform (.fetch id params compute hold)).1 = .call (.done (.body body)) ∧
        (s₀.after run).calls (.fetch id params compute hold) = []) ∧
    (((s₀.after run).perform (.get params)).1 = .body none ↔
      (s₀.after run).Unserved id params compute hold) ∧
    ((s₀.after run).perform (.fetch id params compute hold)).2.cache.counters.computations =
      (s₀.after run).cache.counters.computations +
        ((s₀.after run).calls (.fetch id params compute hold)).length ∧
    (s₀.after run).SameBut (CacheKey.ofParams params).text ((s₀.after run).perform (.get params)).2 := by
  have hgot := (s₀.after run).perform_get_fst params
  refine ⟨fun body => ?_, ?_, ((s₀.after run).perform_performed _).computations,
    ((Orderly.new h).after run).sameBut_get params⟩
  · rw [hgot]
    rcases (s₀.after run).served_or_unserved id params compute hold with
      ⟨served, hserved, hreply, hcalls⟩ | ⟨hnone, hunserved⟩
    · rw [hserved, hreply]
      simp [hcalls]
    · rw [hnone]
      exact ⟨nofun, fun hs => (hunserved.not_served body hs).elim⟩
  · rw [hgot]
    rcases (s₀.after run).served_or_unserved id params compute hold with
      ⟨served, hserved, hreply, hcalls⟩ | ⟨hnone, hunserved⟩
    · rw [hserved]
      exact ⟨nofun, fun hu => (hu.not_served served ⟨hreply, hcalls⟩).elim⟩
    · rw [hnone]
      exact ⟨fun _ => hunserved, fun _ => rfl⟩

/-- A body of one byte is got as it is fetched, also when it has expired. -/
theorem get_agrees_with_fetch_small :
    let s := small.after [⟨.set default ⟨#[7]⟩, true⟩, ⟨.advance (.ofSeconds 60), true⟩]
    Session.new .small = .ok .small ∧
      (s.perform (.get default)).1 = .body (some ⟨#[7]⟩) ∧
      (s.perform (.fetch "a" default (fun _ => .crash) false)).1 = .call (.done (.body ⟨#[7]⟩)) ∧
      s.calls (.fetch "a" default (fun _ => .crash) false) = [] := by
  intro s
  obtain ⟨hserved, -⟩ := get_agrees_with_fetch new_small
    [⟨.set default ⟨#[7]⟩, true⟩, ⟨.advance (.ofSeconds 60), true⟩] "a" default (fun _ => .crash) false
  have hgot : (s.perform (.get default)).1 = .body (some ⟨#[7]⟩) := rfl
  exact ⟨new_small, hgot, (hserved _).1 hgot⟩

end Session

end FizzService
