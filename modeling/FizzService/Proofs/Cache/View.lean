/-
What a session shows of one key: its record, whether it stands in line, its
open computations and the fetches that wait for it. Whether the key is in
flight can be told from its open computations (`Owned.inFlight_eq`), and how a
fetch of it begins from its record and that (`enter_fst`).

A poll does to a key what its own waiting fetches do: they all go on if the key
is free, and none does if it is in flight (`Owned.readyFor_eq`).
-/
import FizzService.Proofs.Cache.Computing
import FizzService.Proofs.Cache.Confined

namespace FizzService

/-- What a waiting fetch is, apart from what it has heard. -/
def WaitingFetch.call (f : WaitingFetch) : CallId × Compute × Bool := (f.id, f.compute, f.hold)

namespace Session

variable {s : Session} {key : CacheKey} {keys : List String}

/-- The open computations of a key. -/
def runningFor (s : Session) (key : CacheKey) : List OpenComputation :=
  s.running.filter (·.key.text = key.text)

/-- The fetches of a key that the next poll lets go on. -/
def readyFor (s : Session) (key : CacheKey) : List WaitingFetch := s.ready.filter (·.key.text = key.text)

/-! ## In flight -/

theorem Owned.inFlight_eq (h : s.Owned) : s.cache.gate.isInFlight key.text =
    (s.runningFor key).any (·.purpose.role = .owner) := by
  rw [Bool.eq_iff_iff, Gate.isInFlight_iff, h.registry, Session.owned, List.any_eq_true]
  simp only [List.mem_map, List.mem_filter, runningFor, decide_eq_true_eq]
  constructor
  · rintro ⟨job, ⟨hm, howner⟩, hk⟩
    exact ⟨job, ⟨hm, hk⟩, howner⟩
  · rintro ⟨job, ⟨hm, hk⟩, howner⟩
    exact ⟨job, ⟨hm, howner⟩, hk⟩

/-! ## Beginning a fetch or a refresh -/

theorem lookup_record (s : Session) (key : CacheKey) : (s.cache.lookup s.now key).1 =
    ((s.cache.stores.record key.text).finding s.now).outcome := by
  rw [ResponseCache.lookup_fst, Stores.find_record]

theorem enter_fst (s : Session) (key : CacheKey) : (s.cache.enter s.now key).1 =
    match ((s.cache.stores.record key.text).finding s.now).outcome with
    | .served body => .served body
    | .bypass => .alone
    | .missing => if s.cache.gate.isInFlight key.text then .waits else .owner := by
  rw [ResponseCache.enter_eq, lookup_record]
  cases ((s.cache.stores.record key.text).finding s.now).outcome with
  | served body => rfl
  | bypass => rfl
  | missing => cases s.cache.gate.isInFlight key.text <;> rfl

theorem wantsRefresh_eq (s : Session) (key : CacheKey) : s.cache.wantsRefresh s.now key =
    (((s.cache.stores.record key.text).finding s.now).isStale && !s.cache.gate.isInFlight key.text) := by
  rw [ResponseCache.wantsRefresh, Stores.find_record]

/-! ## A poll -/

/-- Those who wait for a key go on all together, when it is free. -/
theorem Owned.readyFor_eq (h : s.Owned) : s.readyFor key =
    if s.cache.gate.isInFlight key.text then [] else s.waiting.filter (·.key.text = key.text) := by
  have hpoll : ∀ f ∈ s.waiting, f.key.text = key.text →
      (f.waiter.poll s.cache.gate).isNone = !s.cache.gate.isInFlight key.text := by
    intro f hf hk
    obtain ⟨hawaits, hsound⟩ := h.waits f hf
    rw [hsound.poll_isNone, hawaits, Awaited.holds, hk]
  rw [readyFor, ready, List.filter_filter]
  split
  · rename_i hk
    refine List.filter_eq_nil_iff.2 fun f hf he => ?_
    simp only [Bool.and_eq_true, decide_eq_true_eq] at he
    rw [hpoll f hf he.1, hk] at he
    cases he.2
  · rename_i hk
    refine List.filter_congr fun f hf => ?_
    by_cases he : f.key.text = key.text
    · simp [he, hpoll f hf he, hk]
    · simp [he]

theorem Owned.readyFor_call (h : s.Owned) : (s.readyFor key).map (·.call) =
    if s.cache.gate.isInFlight key.text then [] else s.waitingFor key := by
  rw [h.readyFor_eq]
  split <;> rfl

/-- How far a fetch of a key comes that goes on. -/
def goesOn (s : Session) (key : CacheKey) (call : CallId × Compute × Bool) : CallId × Progress :=
  (call.1, match ((s.cache.stores.record key.text).finding s.now).outcome with
    | .served body => .done (.body body)
    | _ => if call.2.2 then .computing .alone else .done (Purpose.alone.answer (call.2.1 key.params)))

/-- What a fetch of a key that goes on leaves open. -/
def leavesOpen (s : Session) (key : CacheKey) (call : CallId × Compute × Bool) : List OpenComputation :=
  match ((s.cache.stores.record key.text).finding s.now).outcome with
  | .served _ => []
  | _ => if call.2.2 then [⟨call.1, key, call.2.1, .alone, false⟩] else []

theorem key_of_readyFor {f : WaitingFetch} (h : f ∈ s.readyFor key) : f.key = key :=
  CacheKey.ext_text (of_decide_eq_true (List.mem_filter.1 h).2)

theorem Owned.events_settle (h : s.Owned) : (s.readyFor key).map (fun f => (f.id, (s.resume f).1)) =
    if s.cache.gate.isInFlight key.text then [] else (s.waitingFor key).map (s.goesOn key) := by
  have hmap : (s.readyFor key).map (fun f => (f.id, (s.resume f).1)) =
      ((s.readyFor key).map (·.call)).map (s.goesOn key) := by
    rw [List.map_map]
    refine List.map_congr_left fun f hf => ?_
    simp only [resume_fst, key_of_readyFor hf, lookup_record, Function.comp, goesOn, WaitingFetch.call]
    cases ((s.cache.stores.record key.text).finding s.now).outcome <;> rfl
  rw [hmap, h.readyFor_call]
  split <;> rfl

theorem filter_opened (s : Session) (f : WaitingFetch) (key : CacheKey) :
    (s.opened f).filter (·.key.text = key.text) =
      if f.key.text = key.text then s.leavesOpen key f.call else [] := by
  by_cases hk : f.key.text = key.text
  · obtain rfl := CacheKey.ext_text hk
    rw [if_pos rfl, opened, leavesOpen, lookup_record, WaitingFetch.call]
    cases ((s.cache.stores.record f.key.text).finding s.now).outcome with
    | served => rfl
    | bypass | missing => cases f.hold <;> simp
  · rw [if_neg hk, List.filter_eq_nil_iff]
    intro job hjob
    rw [purpose_of_opened hjob]
    simpa using hk

theorem Owned.runningFor_settle (h : s.Owned) : s.settle.2.runningFor key = s.runningFor key ++
    if s.cache.gate.isInFlight key.text then [] else (s.waitingFor key).flatMap (s.leavesOpen key) := by
  have hopened : (s.ready.flatMap s.opened).filter (·.key.text = key.text) =
      ((s.readyFor key).map (·.call)).flatMap (s.leavesOpen key) := by
    rw [List.filter_flatMap, List.flatMap_map, readyFor]
    induction s.ready with
    | nil => rfl
    | cons f fs ih =>
      rw [List.flatMap_cons, ih, filter_opened, List.filter_cons]
      by_cases hk : f.key.text = key.text <;> simp [hk]
  rw [runningFor, running_settle, List.filter_append, hopened, h.readyFor_call]
  split <;> rfl

theorem Owned.waitingFor_settle_eq (h : s.Owned) : s.settle.2.waitingFor key =
    if s.cache.gate.isInFlight key.text then s.waitingFor key else [] := by
  split
  · rename_i hk
    exact h.waitingFor_settle (Gate.isInFlight_iff.1 hk)
  · rename_i hk
    rw [waitingFor, List.filter_eq_nil_iff.2, List.map_nil]
    intro f hf he
    have htaken := (h.attended_settle f hf).2
    rw [gate_settle, of_decide_eq_true he] at htaken
    exact hk (Gate.isInFlight_iff.2 htaken)

theorem Fit.record_settle (h : s.Fit keys) : s.settle.2.cache.stores.record key.text =
    if s.cache.gate.isInFlight key.text then s.cache.stores.record key.text
    else (s.waitingFor key).foldl (fun r _ => (Access.find key).effect s.cache.config s.now r)
      (s.cache.stores.record key.text) := by
  have hfinds : (s.ready.map (Access.find ·.key)).filter (·.concerns key) =
      ((s.readyFor key).map (·.call)).map fun _ => Access.find key := by
    rw [List.filter_map, List.map_map]
    exact List.map_congr_left fun f hf => by rw [Function.comp, key_of_readyFor hf]
  have hputs : ∀ key body, Access.put key body ∈ s.ready.map (Access.find ·.key) → key.text ∈ keys := by
    intro key body hm
    obtain ⟨f, -, he⟩ := List.mem_map.1 hm
    cases he
  rw [stores_settle, h.orderly.stores.record_replay h.confined.stores h.room hputs, hfinds,
    h.owned.readyFor_call, List.foldl_map]
  split <;> rfl

theorem Fit.line_settle (h : s.Fit keys) : key ∈ s.settle.2.cache.queue.line ↔
    key ∈ s.cache.queue.line ∨ s.waitingFor key ≠ [] ∧ s.cache.wantsRefresh s.now key = true := by
  have hwanted : ∀ k ∈ (s.ready.map (·.key)).filter (s.cache.wantsRefresh s.now), k.text ∈ keys := by
    intro k hk
    obtain ⟨f, hf, rfl⟩ := List.mem_map.1 (List.mem_filter.1 hk).1
    exact h.confined.waiting f (List.mem_filter.1 hf).1
  rw [queue_settle, h.line.1.mem_enqueueAll h.confined.line h.line.2 hwanted, List.mem_filter]
  refine or_congr_right (and_congr_left fun hwants => ?_)
  have hfree : s.cache.gate.isInFlight key.text = false := by
    simp only [ResponseCache.wantsRefresh, Bool.and_eq_true, Bool.not_eq_true'] at hwants
    exact hwants.2
  have hready : (s.readyFor key).map (·.call) = s.waitingFor key := by
    rw [h.owned.readyFor_call, hfree, if_neg Bool.false_ne_true]
  rw [← hready, ne_eq, List.map_eq_nil_iff]
  constructor
  · intro hm
    obtain ⟨f, hf, rfl⟩ := List.mem_map.1 hm
    exact List.ne_nil_of_mem (List.mem_filter.2 ⟨hf, decide_eq_true rfl⟩)
  · intro hne
    obtain ⟨f, hf⟩ := List.exists_mem_of_ne_nil _ hne
    exact List.mem_map.2 ⟨f, (List.mem_filter.1 hf).1, key_of_readyFor hf⟩

end Session

end FizzService
