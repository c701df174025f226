/-
Fetches of one key that come while it is being computed end together. The end
of the computation lets go on exactly those who have come for its key
(`Computing.ready_finish`). What they find is what the owner has just filed:
an ordinary or empty body serves them all; after a failure, a crash or an
oversized body each computes on its own and leaves no trace
(`fetches_coalesce`).
-/
import FizzService.Proofs.Cache.Computing

namespace FizzService

namespace Session

variable {key : CacheKey} {id : CallId} {compute : Compute} {joined : List (CallId × Compute)} {s : Session}

theorem Computing.gate_finish (h : s.Computing key id compute joined) :
    (s.perform (.finish id)).2.cache.gate = s.cache.gate.release key.text := by
  simp only [perform, finish_found s id h.owner]
  exact ResponseCache.gate_finish ..

/-- The end of the computation lets go on exactly those who came for its key. -/
theorem Computing.ready_finish (h : s.Computing key id compute joined) (ha : s.Attended) :
    (s.perform (.finish id)).2.ready = s.waiting.filter (·.key.text = key.text) := by
  have howned := h.owned.moves (s.perform_performed (.finish id)).moves
  have hwaiting : (s.perform (.finish id)).2.waiting = s.waiting := by
    simp only [perform, finish_found s id h.owner]
  rw [ready, hwaiting]
  refine List.filter_congr fun f hf => ?_
  obtain ⟨hawaits, hsound⟩ := howned.waits f (hwaiting ▸ hf)
  rw [hsound.poll_isNone, hawaits, Awaited.holds, h.gate_finish]
  have hmem := (ha f hf).2
  simp [Gate.isInFlight, Gate.release, hmem]

/-- How far a fetch that came for the key comes on its own or with what it
finds. -/
def comesTo (key : CacheKey) (found : Lookup) (j : CallId × Compute) : CallId × Progress :=
  (j.1, .done (match found with
    | .served body => .body body
    | _ => Purpose.alone.answer (j.2 key.params)))

/-- What a fetch that came for the key calls, given what it finds. -/
def callsThen (key : CacheKey) (found : Lookup) (j : CallId × Compute) : List (CacheKey × Compute) :=
  match found with
  | .served _ => []
  | _ => [(key, j.2)]

/-- All who came for the key go on, each in its turn, and nobody else does. -/
theorem Computing.settle_finish (h : s.Computing key id compute joined) (ha : s.Attended) {t : Session}
    (ht : t = (s.perform (.finish id)).2) :
    t.settle.1 = joined.map (comesTo key (t.cache.lookup t.now key).1) ∧
      t.ready.flatMap t.called = joined.flatMap (callsThen key (t.cache.lookup t.now key).1) := by
  subst ht
  have hready := h.ready_finish ha
  generalize (s.perform (.finish id)).2 = t at hready ⊢
  have hkey : ∀ f ∈ t.ready, f.key = key := by
    intro f hf
    rw [hready] at hf
    exact CacheKey.ext_text (of_decide_eq_true (List.mem_filter.1 hf).2)
  have hwaiting : t.ready.map (fun f => (f.id, f.compute, f.hold)) =
      joined.map fun j => (j.1, j.2, false) := by
    rw [hready]
    exact h.waiting
  have hheld : ∀ f ∈ t.ready, f.hold = false := by
    intro f hf
    have hmem := List.mem_map_of_mem hf (f := fun f : WaitingFetch => (f.id, f.compute, f.hold))
    rw [hwaiting] at hmem
    obtain ⟨j, -, hj⟩ := List.mem_map.1 hmem
    exact (Prod.mk.inj (Prod.mk.inj hj).2).2.symm
  have hjoined : joined = t.ready.map fun f => (f.id, f.compute) := by
    have hfst := congrArg (List.map fun w : CallId × Compute × Bool => (w.1, w.2.1)) hwaiting
    rw [List.map_map, List.map_map] at hfst
    simpa [Function.comp_def] using hfst.symm
  rw [hjoined, settle_events, List.map_map, List.flatMap_map, List.flatMap_def, List.flatMap_def]
  refine ⟨List.map_congr_left fun f hf => ?_, congrArg _ (List.map_congr_left fun f hf => ?_)⟩
  · simp only [Function.comp, comesTo, resume_fst, hkey f hf, hheld f hf]
    cases (t.cache.lookup t.now key).1 <;> rfl
  · cases hl : (t.cache.lookup t.now key).1 <;> simp only [called, callsThen, hkey f hf, hl]

/-- What the end of the computation leaves on record for the key: the body
that the owner has filed, or nothing. -/
theorem Computing.record_finish (h : s.Computing key id compute joined) {t : Session}
    (ht : t = (s.perform (.finish id)).2) :
    match compute key.params with
    | .body body => t.cache.stores.Filed t.cache.config.maxAcceptedBytes.toNat t.now key.text body
    | _ => t.cache.stores.Absent key.text := by
  subst ht
  have hp := s.perform_performed (.finish id)
  cases hc : compute key.params with
  | body body =>
    have hw : s.Writes (.finish id) key.params body (s.perform (.finish id)).2.cache :=
      .finish id _ body h.owner rfl hc
    have hfiled := hw.filed h.orderly
    rw [CacheKey.ofParams_params, ← hp.config] at hfiled
    exact hfiled
  | failure | crash =>
    have hstores : (s.perform (.finish id)).2.cache.stores = s.cache.stores := by
      rw [hp.stores]
      simp only [accesses, h.owner, hc, Role.writes, Purpose.role]
      rfl
    simp only
    rw [hstores]
    exact h.absent

/-- What those who came for the key find. -/
theorem Computing.lookup_finish (h : s.Computing key id compute joined) {t : Session}
    (ht : t = (s.perform (.finish id)).2) :
    (t.cache.lookup t.now key).1 = match compute key.params with
      | .body body => if body.size ≤ t.cache.config.maxAcceptedBytes.toNat then .served body else .bypass
      | _ => .missing := by
  have hrecord := h.record_finish ht
  have hsound : t.cache.stores.Sound t.cache.config := ht ▸ (h.orderly.perform (.finish id)).stores
  rw [ResponseCache.lookup_fst]
  cases hc : compute key.params with
  | body body =>
    rw [hc] at hrecord
    exact hsound.find_filed hrecord
  | failure | crash =>
    rw [hc] at hrecord
    rw [hrecord.find_fst]
    rfl

/-- A poll leaves the record of the key as it is. -/
theorem Computing.record_settle (h : s.Computing key id compute joined) {t : Session}
    (ht : t = (s.perform (.finish id)).2) :
    t.settle.2.cache.stores.entryAt key.text = t.cache.stores.entryAt key.text ∧
      t.settle.2.cache.stores.negativeAt key.text = t.cache.stores.negativeAt key.text := by
  have hrecord := h.record_finish ht
  have hsound : t.cache.stores.Sound t.cache.config := ht ▸ (h.orderly.perform (.finish id)).stores
  have hfinds : t.ready.map (fun f => Access.find f.key) = (t.ready.map (·.key)).map Access.find := by
    rw [List.map_map]
    rfl
  rw [stores_settle, hfinds]
  refine Stores.replay_find _ fun i hi => ?_
  cases hc : compute key.params with
  | body body =>
    rw [hc] at hrecord
    exact hsound.fresh_of_filed hrecord hi
  | failure | crash =>
    rw [hc] at hrecord
    cases hrecord.2.symm.trans hi

theorem Computing.reply_finish (h : s.Computing key id compute joined) : (s.perform (.finish id)).1 =
    .ended (.answered (Purpose.fetch.answer (compute key.params))) := by
  simp only [perform, finish_found s id h.owner, Bool.false_eq_true, if_false]

theorem Computing.free_finish (h : s.Computing key id compute joined) :
    key.text ∉ (s.perform (.finish id)).2.cache.gate.inFlight := by
  rw [h.gate_finish]
  simp [Gate.release]

/-- Of what the last step calls, all is called for the key. -/
theorem filter_callsThen (key : CacheKey) (found : Lookup) (joined : List (CallId × Compute)) :
    (joined.flatMap (callsThen key found)).filter (·.1.text = key.text) =
      joined.flatMap (callsThen key found) := by
  refine List.filter_eq_self.2 fun c hc => ?_
  obtain ⟨j, -, hj⟩ := List.mem_flatMap.1 hc
  unfold callsThen at hj
  split at hj
  · cases hj
  · rw [List.mem_singleton.1 hj]
    exact decide_eq_true rfl

/-- The step that ends the computation: what the owner gets, what the others
come to, and what they call. -/
theorem Computing.step_finish (h : s.Computing key id compute joined) (ha : s.Attended) {t : Session}
    (ht : t = (s.perform (.finish id)).2) :
    (s.step (.finish id) true).1 = .ended (.answered (Purpose.fetch.answer (compute key.params))) ∧
      (s.step (.finish id) true).2.1 = joined.map (comesTo key (t.cache.lookup t.now key).1) ∧
      (s.stepCalls ⟨.finish id, true⟩).filter (·.1.text = key.text) =
        joined.flatMap (callsThen key (t.cache.lookup t.now key).1) := by
  obtain ⟨hevents, hcalled⟩ := h.settle_finish ha ht
  have hcalls : s.stepCalls ⟨.finish id, true⟩ = t.ready.flatMap t.called := by
    rw [ht]
    rfl
  refine ⟨?_, ?_, ?_⟩
  · rw [step_fst]
    exact h.reply_finish
  · rw [step_events, if_pos rfl, ← ht]
    exact hevents
  · rw [hcalls, hcalled]
    exact filter_callsThen ..

/-- The states that a cache comes to by steps with a poll. -/
def Settled (config : CacheConfig) (s : Session) : Prop :=
  ∃ s₀ run, Session.new config = .ok s₀ ∧ (∀ t ∈ run, t.settled = true) ∧ s = s₀.after run

theorem Settled.holds {config : CacheConfig} (h : s.Settled config) : s.Orderly ∧ s.Owned ∧ s.Attended ∧
    s.cache.config.maxAcceptedBytes = config.maxAcceptedBytes := by
  obtain ⟨s₀, run, hnew, hsettled, rfl⟩ := h
  refine ⟨(Orderly.new hnew).after run, (Owned.new hnew).after run, ?_, ?_⟩
  · -- The last step, if there is one, polled everybody.
    rcases List.eq_nil_or_concat run with rfl | ⟨run, t, rfl⟩
    · obtain ⟨-, queue, rfl⟩ := new_eq_ok hnew
      exact fun f hf => by cases hf
    · rw [List.concat_eq_append, after_append]
      exact ((Owned.new hnew).after run).attended_next (hsettled t (by simp))
  · rw [config_after]
    obtain ⟨-, queue, rfl⟩ := new_eq_ok hnew
    rfl

/-- **Fetches of one key coalesce.** A held fetch begins the computation of a
key that is neither in flight nor on record, under a name that no open
computation has; others come for the key while it is open. If it ends with a
body that is empty or of an accepted size, that ends them all, in the same
step, and no other compute function is called for the key. If it fails,
crashes or ends with an oversized body, each of the others goes on in the same
step and calls its own compute function, once; that changes nothing of what is
on record for the key, and the key is not in flight. -/
theorem fetches_coalesce {config : CacheConfig} {s : Session} (h : s.Settled config) (id : CallId)
    (key : CacheKey) (compute : Compute) (settled : Bool) (between : List Step)
    (hfree : key.text ∉ s.cache.gate.inFlight) (hmissing : (s.cache.lookup s.now key).1 = .missing)
    (hfresh : id ∉ s.running.map (·.id))
    (hbetween : AllBetween key (s.next ⟨.fetch id key.params compute true, settled⟩) between) :
    let u := (s.next ⟨.fetch id key.params compute true, settled⟩).after between
    let ended := (u.perform (.finish id)).2
    let calls := (s.runCalls (⟨.fetch id key.params compute true, settled⟩ :: between ++
      [⟨.finish id, true⟩])).filter (·.1.text = key.text)
    (∀ v, compute key.params = .body v → v.size ≤ config.maxAcceptedBytes.toNat →
      (u.step (.finish id) true).1 = .ended (.answered (.body v)) ∧
      (u.step (.finish id) true).2.1 = (joiners key between).map (fun j => (j.1, .done (.body v))) ∧
      calls = [(key, compute)]) ∧
    ((∀ v, compute key.params = .body v → config.maxAcceptedBytes.toNat < v.size) →
      (u.step (.finish id) true).1 = .ended (.answered (Purpose.fetch.answer (compute key.params))) ∧
      (u.step (.finish id) true).2.1 =
        (joiners key between).map (fun j => (j.1, .done (Purpose.alone.answer (j.2 key.params)))) ∧
      calls = (key, compute) :: (joiners key between).map (fun j => (key, j.2)) ∧
      (u.next ⟨.finish id, true⟩).cache.stores.entryAt key.text =
        ended.cache.stores.entryAt key.text ∧
      (u.next ⟨.finish id, true⟩).cache.stores.negativeAt key.text =
        ended.cache.stores.negativeAt key.text ∧
      key.text ∉ (u.next ⟨.finish id, true⟩).cache.gate.inFlight) := by
  intro u ended calls
  obtain ⟨horderly, howned, hattended, haccepted⟩ := h.holds
  obtain ⟨hbegun, hattended, hfirst⟩ :=
    computing_fetch horderly howned hattended hfree hmissing hfresh compute settled
  obtain ⟨hu, hattended, hnone⟩ := hbegun.after hattended hbetween
  rw [List.nil_append] at hu
  obtain ⟨hreply, hevents, hlast⟩ := hu.step_finish hattended (t := ended) rfl
  have hlookup := hu.lookup_finish (t := ended) rfl
  have haccepted : ended.cache.config.maxAcceptedBytes = config.maxAcceptedBytes := by
    rw [← haccepted, (u.perform_performed (.finish id)).config]
    exact congrArg _ ((config_after ..).trans (config_next ..))
  rw [haccepted] at hlookup
  have hcalls : calls = (key, compute) ::
      (joiners key between).flatMap (callsThen key (ended.cache.lookup ended.now key).1) := by
    simp only [calls]
    rw [runCalls_append]
    simp only [runCalls, List.filter_append, hfirst, hnone, List.append_nil]
    exact congrArg _ hlast
  refine ⟨fun v hv hsize => ?_, fun hrefused => ?_⟩
  · -- Those who came for the key find what the owner has filed.
    have hserved : (ended.cache.lookup ended.now key).1 = .served v := by
      rw [hlookup, hv]
      exact if_pos hsize
    rw [hserved] at hevents hcalls
    refine ⟨hreply.trans (by rw [hv]; rfl), hevents, ?_⟩
    rw [hcalls]
    simp [callsThen]
  · -- They find nothing, or that they must not be served.
    have hfound : (ended.cache.lookup ended.now key).1 = .missing ∨
        (ended.cache.lookup ended.now key).1 = .bypass := by
      rw [hlookup]
      cases hc : compute key.params with
      | body v =>
        have hsize := hrefused v hc
        exact .inr (if_neg (by omega))
      | failure | crash => exact .inl rfl
    have hnext : u.next ⟨.finish id, true⟩ = ended.settle.2 := by rw [next_eq]; rfl
    obtain ⟨hentry, hnegative⟩ := hu.record_settle (t := ended) rfl
    refine ⟨hreply, ?_, ?_, hnext ▸ hentry, hnext ▸ hnegative, ?_⟩
    · rw [hevents]
      rcases hfound with hf | hf <;> rw [hf] <;> rfl
    · rw [hcalls, List.map_eq_flatMap]
      rcases hfound with hf | hf <;> rw [hf] <;> rfl
    · rw [hnext, gate_settle]
      exact hu.free_finish

/-- One fetch joins another and time passes; the first ends with a body of a
byte, or crashes. -/
theorem fetches_coalesce_small :
    small.Settled .small ∧
    (((small.next ⟨.fetch "a" default (fun _ => .body ⟨#[7]⟩) true, true⟩).after
      [⟨.fetch "b" default (fun _ => .crash) false, false⟩, ⟨.advance 5, true⟩]).step
        (.finish "a") true).2.1 =
        [("b", .done (.body ⟨#[7]⟩))] ∧
    (((small.next ⟨.fetch "a" default (fun _ => .crash) true, true⟩).after
      [⟨.fetch "b" default (fun _ => .body ⟨#[8]⟩) false, true⟩]).step (.finish "a") true).2.1 =
        [("b", .done (.body ⟨#[8]⟩))] := by
  have hsettled : small.Settled .small := ⟨small, [], new_small, (fun _ ht => by cases ht), rfl⟩
  have hends := fetches_coalesce hsettled "a" (.ofParams default) (fun _ => .body ⟨#[7]⟩) true
    [⟨.fetch "b" default (fun _ => .crash) false, false⟩, ⟨.advance 5, true⟩]
    (by exact List.not_mem_nil) rfl (by exact List.not_mem_nil) ⟨.joins "b" (fun _ => .crash) false, .advances 5 true, trivial⟩
  have hcrashes := fetches_coalesce hsettled "a" (.ofParams default) (fun _ => .crash) true
    [⟨.fetch "b" default (fun _ => .body ⟨#[8]⟩) false, true⟩] (by exact List.not_mem_nil) rfl
    (by exact List.not_mem_nil) ⟨.joins "b" (fun _ => .body ⟨#[8]⟩) true, trivial⟩
  exact ⟨hsettled, (hends.1 _ rfl (by decide)).2.1, (hcrashes.2 fun _ hv => by cases hv).2.1⟩

end Session

end FizzService
