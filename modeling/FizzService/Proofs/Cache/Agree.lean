/-
Two sessions that are the same to a key. They agree on the record of the key,
on its place in line, on its open computations and on those who wait for it
(`Agree`). A poll of both keeps that (`Agree.settle`), and an action that
concerns other keys only goes unnoticed, with the poll after it
(`Fit.agree_erased`).
-/
import FizzService.Proofs.Cache.View

namespace FizzService

namespace Session

/-- The parameters that an action concerns: those it names, or those of the
call that it ends or gives up. -/
def subjects (s : Session) (a : Action) : List Params :=
  match a with
  | .finish id => ((s.running.find? (·.id = id)).map (·.key.params)).toList
  | .cancel id =>
    if s.waiting.any (·.id = id) then (s.waiting.filter (·.id = id)).map (·.key.params)
    else (s.running.filter fun job => job.id = id && !job.abandoned).map (·.key.params)
  | a => a.params?.toList

/-- An action that concerns other keys only. -/
def isForeign (s : Session) (key : CacheKey) (a : Action) : Bool :=
  s.subjects a ≠ [] ∧ key.params ∉ s.subjects a

/-- Two sessions that are the same to a key. -/
structure Agree (key : CacheKey) (s t : Session) : Prop where
  config : t.cache.config = s.cache.config
  now : t.now = s.now
  sweep : t.sweep = s.sweep
  record : t.cache.stores.record key.text = s.cache.stores.record key.text
  line : key ∈ t.cache.queue.line ↔ key ∈ s.cache.queue.line
  running : t.runningFor key = s.runningFor key
  waiting : t.waitingFor key = s.waitingFor key

variable {s t : Session} {key : CacheKey} {keys keys' : List String} {a : Action}

/-! ## What agreeing sessions have in common -/

theorem Agree.symm (h : Agree key s t) : Agree key t s :=
  ⟨h.config.symm, h.now.symm, h.sweep.symm, h.record.symm, h.line.symm, h.running.symm, h.waiting.symm⟩

theorem Agree.trans {u : Session} (h : Agree key s t) (h' : Agree key t u) : Agree key s u :=
  ⟨h'.config.trans h.config, h'.now.trans h.now, h'.sweep.trans h.sweep, h'.record.trans h.record,
    h'.line.trans h.line, h'.running.trans h.running, h'.waiting.trans h.waiting⟩

theorem Agree.inFlight (h : Agree key s t) (hs : s.Owned) (ht : t.Owned) :
    t.cache.gate.isInFlight key.text = s.cache.gate.isInFlight key.text := by
  rw [hs.inFlight_eq, ht.inFlight_eq, h.running]

theorem Agree.enter (h : Agree key s t) (hs : s.Owned) (ht : t.Owned) :
    (t.cache.enter t.now key).1 = (s.cache.enter s.now key).1 := by
  rw [enter_fst, enter_fst, h.record, h.now, h.inFlight hs ht]

theorem Agree.wantsRefresh (h : Agree key s t) (hs : s.Owned) (ht : t.Owned) :
    t.cache.wantsRefresh t.now key = s.cache.wantsRefresh s.now key := by
  rw [wantsRefresh_eq, wantsRefresh_eq, h.record, h.now, h.inFlight hs ht]

theorem Agree.goesOn (h : Agree key s t) : t.goesOn key = s.goesOn key := by
  funext call
  rw [Session.goesOn, Session.goesOn, h.record, h.now]

theorem Agree.leavesOpen (h : Agree key s t) : t.leavesOpen key = s.leavesOpen key := by
  funext call
  rw [Session.leavesOpen, Session.leavesOpen, h.record, h.now]

/-! ## A poll -/

theorem sweep_settle (s : Session) : s.settle.2.sweep = s.sweep := s.settle_polled.alike.sweep

/-- A poll of both. -/
theorem Agree.settle (h : Agree key s t) (hs : s.Fit keys) (ht : t.Fit keys') :
    Agree key s.settle.2 t.settle.2 ∧
      (t.readyFor key).map (fun f => (f.id, (t.resume f).1)) =
        (s.readyFor key).map (fun f => (f.id, (s.resume f).1)) := by
  have hflight := h.inFlight hs.owned ht.owned
  refine ⟨⟨?_, ?_, ?_, ?_, ?_, ?_, ?_⟩, ?_⟩
  · rw [config_settle, config_settle, h.config]
  · rw [now_settle, now_settle, h.now]
  · rw [sweep_settle, sweep_settle, h.sweep]
  · rw [hs.record_settle, ht.record_settle, hflight, h.record, h.waiting, h.config, h.now]
  · rw [hs.line_settle, ht.line_settle, h.line, h.waiting, h.wantsRefresh hs.owned ht.owned]
  · rw [hs.owned.runningFor_settle, ht.owned.runningFor_settle, hflight, h.running, h.waiting, h.leavesOpen]
  · rw [hs.owned.waitingFor_settle_eq, ht.owned.waitingFor_settle_eq, hflight, h.waiting]
  · rw [hs.owned.events_settle, ht.owned.events_settle, hflight, h.waiting, h.goesOn]

/-- A poll that lets nobody go on for a key leaves the key alone. -/
theorem Fit.agree_settle (hs : s.Fit keys)
    (hnone : s.cache.gate.isInFlight key.text = true ∨ s.waitingFor key = []) :
    Agree key s s.settle.2 ∧ (s.readyFor key).map (fun f => (f.id, (s.resume f).1)) = [] := by
  have hunwanted : ¬ (s.waitingFor key ≠ [] ∧ s.cache.wantsRefresh s.now key = true) := by
    rintro ⟨hne, hwants⟩
    rcases hnone with hk | hk
    · rw [ResponseCache.wantsRefresh, hk, Bool.not_true, Bool.and_false] at hwants
      cases hwants
    · exact hne hk
  refine ⟨⟨s.config_settle, s.now_settle, s.sweep_settle, ?_, ?_, ?_, ?_⟩, ?_⟩
  · rw [hs.record_settle]
    rcases hnone with hk | hk <;> rw [hk]
    · rfl
    · exact ite_self _
  · rw [hs.line_settle, or_iff_left hunwanted]
  · rw [hs.owned.runningFor_settle]
    rcases hnone with hk | hk <;> rw [hk] <;> simp
  · rw [hs.owned.waitingFor_settle_eq]
    rcases hnone with hk | hk <;> rw [hk]
    · rfl
    · exact ite_self _
  · rw [hs.owned.events_settle]
    rcases hnone with hk | hk <;> rw [hk]
    · rfl
    · exact ite_self _

/-! ## Ends and cancellations -/

theorem find?_filter_of {α : Type} {p q : α → Bool} {l : List α} (h : ∀ a, l.find? p = some a → q a = true) :
    (l.filter q).find? p = l.find? p := by
  induction l with
  | nil => rfl
  | cons a l ih =>
    rw [List.find?_cons] at h
    cases hp : p a with
    | true =>
      rw [hp] at h
      rw [List.filter_cons_of_pos (h a rfl), List.find?_cons, List.find?_cons, hp]
    | false =>
      rw [hp] at h
      rw [List.find?_cons, hp, List.filter_cons]
      split
      · rw [List.find?_cons, hp]
        exact ih h
      · exact ih h

/-- The first element that satisfies `p` goes, and it is one of the filtered. -/
theorem filter_eraseP {α : Type} {p q : α → Bool} {l : List α} (h : ∀ a, l.find? p = some a → q a = true) :
    (l.eraseP p).filter q = (l.filter q).eraseP p := by
  induction l with
  | nil => rfl
  | cons a l ih =>
    rw [List.find?_cons] at h
    cases hp : p a with
    | true =>
      rw [hp] at h
      rw [List.eraseP_cons_of_pos hp, List.filter_cons_of_pos (h a rfl), List.eraseP_cons_of_pos hp]
    | false =>
      rw [hp] at h
      have hn : ¬ p a = true := by simp [hp]
      rw [List.eraseP_cons_of_neg hn, List.filter_cons, List.filter_cons]
      split
      · rw [List.eraseP_cons_of_neg hn, ih h]
      · exact ih h

/-- The first element that satisfies `p` goes, and it is none of the filtered. -/
theorem filter_eraseP_other {α : Type} {p q : α → Bool} {l : List α}
    (h : ∀ a, l.find? p = some a → q a = false) : (l.eraseP p).filter q = l.filter q := by
  induction l with
  | nil => rfl
  | cons a l ih =>
    rw [List.find?_cons] at h
    cases hp : p a with
    | true =>
      rw [hp] at h
      rw [List.eraseP_cons_of_pos hp, List.filter_cons_of_neg (by simp [h a rfl])]
    | false =>
      rw [hp] at h
      rw [List.eraseP_cons_of_neg (by simp [hp]), List.filter_cons, List.filter_cons, ih h]

theorem runningFor_left (s : Session) (key : CacheKey) (id : CallId) :
    (s.running.map (OpenComputation.leftBy id)).filter (·.key.text = key.text) =
      (s.runningFor key).map (.leftBy id) := by
  rw [List.filter_map, runningFor]
  congr 1
  exact List.filter_congr fun job _ => by simp only [Function.comp, OpenComputation.key_leftBy]

theorem waitingFor_left (s : Session) (key : CacheKey) (id : CallId) :
    ((s.waiting.filter (·.id ≠ id)).filter (·.key.text = key.text)).map (·.call) =
      (s.waitingFor key).filter (·.1 ≠ id) := by
  rw [waitingFor, List.filter_map, List.filter_filter, List.filter_filter]
  congr 1
  exact List.filter_congr fun f _ => Bool.and_comm ..

/-! ## A step that concerns other keys -/

/-- What is all of one key is all kept for that key, and not at all for another. -/
theorem filter_of_key {α : Type} {p : α → Bool} {l : List α} {key' : CacheKey}
    (h : ∀ a ∈ l, p a = decide (key'.text = key.text)) :
    l.filter p = if key'.text = key.text then l else [] := by
  split
  · rename_i hk
    exact List.filter_eq_self.2 fun a ha => by rw [h a ha]; exact decide_eq_true hk
  · rename_i hk
    exact List.filter_eq_nil_iff.2 fun a ha => by rw [h a ha]; simpa using hk

theorem filter_writes {role : Role} {key' : CacheKey} {outcome : Outcome} :
    (role.writes key' outcome).filter (·.concerns key) =
      if key'.text = key.text then role.writes key' outcome else [] := by
  refine filter_of_key fun access ha => ?_
  cases role <;> cases outcome <;> simp only [Role.writes, List.not_mem_nil, List.mem_singleton] at ha
  rw [ha]
  rfl

theorem filter_fetchOpens {id : CallId} {key' : CacheKey} {compute : Compute} {hold : Bool} :
    (s.fetchOpens id key' compute hold).filter (·.key.text = key.text) =
      if key'.text = key.text then s.fetchOpens id key' compute hold else [] :=
  filter_of_key fun job hjob => by rw [key_of_fetchOpens hjob]

theorem filter_fetchWaits {id : CallId} {key' : CacheKey} {compute : Compute} {hold : Bool} :
    (s.fetchWaits id key' compute hold).filter (·.key.text = key.text) =
      if key'.text = key.text then s.fetchWaits id key' compute hold else [] :=
  filter_of_key fun f hf => by rw [key_of_fetchWaits hf]

theorem Fit.record_perform (hs : s.Fit keys) (ha : Names keys a) : (s.perform a).2.cache.stores.record key.text =
    ((s.accesses a).filter (·.concerns key)).foldl (Access.effect s.cache.config (s.perform a).2.now)
      (s.cache.stores.record key.text) := by
  rw [(s.perform_performed a).stores]
  exact hs.orderly.stores.record_replay hs.confined.stores hs.room (fun _ _ => hs.confined.of_put ha) _ key

theorem filter_accesses_named {params : Params} (hnamed : a.params? = some params)
    (htext : (CacheKey.ofParams params).text ≠ key.text) : (s.accesses a).filter (·.concerns key) = [] := by
  cases a with
  | fetch id params compute hold =>
    cases hnamed
    rw [Session.accesses, List.filter_cons_of_neg (by simpa [Access.concerns] using htext)]
    split
    · cases hold with
      | true => rfl
      | false => exact filter_writes.trans (if_neg htext)
    · rfl
  | refresh id params compute hold =>
    cases hnamed
    simp only [Session.accesses]
    split
    · rfl
    · rw [filter_writes, if_neg htext]
  | get | set | invalidate | negativeFlag =>
    cases hnamed
    simp [Session.accesses, Access.concerns, htext]
  | isQueued => rfl
  | _ => cases hnamed

/-- An action that names another key. -/
theorem Fit.agree_named (hs : s.Fit keys) (ha : Names keys a) {params : Params}
    (hnamed : a.params? = some params) (hother : params ≠ key.params) : Agree key s (s.perform a).2 := by
  have htext := ofParams_text_ne hother
  refine ⟨(s.perform_performed a).config, ?_, ?_, ?_, ?_, ?_, ?_⟩
  · rw [now_perform]
    cases a <;> first | rfl | cases hnamed
  · rw [sweep_perform]
    cases a <;> first | rfl | cases hnamed
  · rw [hs.record_perform ha, filter_accesses_named hnamed htext]
    rfl
  · rw [queue_perform]
    cases a with
    | fetch id params compute hold =>
      cases hnamed
      have hwanted : ∀ k ∈ [CacheKey.ofParams params].filter (s.cache.wantsRefresh s.now), k.text ∈ keys :=
        fun k hk => by rw [List.mem_singleton.1 (List.mem_filter.1 hk).1]; exact ha params rfl
      refine (hs.line.1.mem_enqueueAll hs.confined.line hs.line.2 hwanted).trans (or_iff_left fun hm => ?_)
      exact htext (congrArg CacheKey.text (List.mem_singleton.1 (List.mem_filter.1 hm).1)).symm
    | nextRefresh | work => cases hnamed
    | _ => exact Iff.rfl
  · rw [runningFor, running_perform]
    cases a with
    | fetch id params compute hold =>
      cases hnamed
      rw [List.filter_append, filter_fetchOpens, if_neg htext, List.append_nil, runningFor]
    | refresh id params compute hold =>
      cases hnamed
      simp only [List.filter_append]
      split <;> simp [htext, runningFor]
    | finish | cancel => cases hnamed
    | _ => rfl
  · rw [waitingFor, waiting_perform]
    cases a with
    | fetch id params compute hold =>
      cases hnamed
      rw [List.filter_append, filter_fetchWaits, if_neg htext, List.append_nil, waitingFor]
    | cancel => cases hnamed
    | _ => rfl

/-- The end of a computation of another key. -/
theorem Fit.agree_finish (hs : s.Fit keys) {id : CallId} {job : OpenComputation}
    (hfound : s.running.find? (·.id = id) = some job) (hother : job.key.text ≠ key.text) :
    Agree key s (s.perform (.finish id)).2 := by
  refine ⟨(s.perform_performed _).config, now_perform .., sweep_perform .., ?_, ?_, ?_, ?_⟩
  · have hnone : (s.accesses (.finish id)).filter (·.concerns key) = [] := by
      simp only [Session.accesses, hfound, filter_writes, if_neg hother]
    rw [hs.record_perform (fun _ he => by cases he), hnone]
    rfl
  · rw [queue_perform]
  · rw [runningFor, running_perform]
    refine filter_eraseP_other fun job' hfound' => ?_
    cases hfound.symm.trans hfound'
    exact decide_eq_false hother
  · rw [waitingFor, waiting_perform]
    rfl

/-- The cancellation of calls of other keys. -/
theorem Fit.agree_cancel (hs : s.Fit keys) {id : CallId}
    (hwaiting : ∀ f ∈ s.waitingFor key, f.1 ≠ id)
    (hrunning : s.waiting.any (·.id = id) = false → ∀ job ∈ s.runningFor key, job.id = id → job.abandoned = true) :
    Agree key s (s.perform (.cancel id)).2 := by
  refine ⟨(s.perform_performed _).config, now_perform .., sweep_perform .., ?_, ?_, ?_, ?_⟩
  · rw [hs.record_perform fun _ he => by cases he]
    rfl
  · rw [queue_perform]
  · rw [runningFor, running_perform]
    change (if s.waiting.any (·.id = id) then s.running else s.running.map (.leftBy id)).filter _ = _
    cases hany : s.waiting.any (·.id = id) with
    | true => rfl
    | false =>
      rw [if_neg Bool.false_ne_true, runningFor_left]
      -- Whoever might leave has left before.
      refine (List.map_congr_left fun job hjob => ?_).trans (List.map_id _)
      unfold OpenComputation.leftBy
      split
      · rename_i hid
        rw [← hrunning hany job hjob hid]
        rfl
      · rfl
  · rw [waitingFor, waiting_perform]
    refine (waitingFor_left s key id).trans (List.filter_eq_self.2 fun f hf => ?_)
    exact decide_eq_true (hwaiting f hf)

/-- An action that concerns other keys only. -/
theorem Fit.agree_foreign (hs : s.Fit keys) (ha : Names keys a) (hforeign : s.isForeign key a = true) :
    Agree key s (s.perform a).2 := by
  obtain ⟨hsome, hother⟩ := of_decide_eq_true hforeign
  cases a with
  | finish id =>
    rw [subjects] at hsome hother
    cases hfound : s.running.find? (·.id = id) with
    | none =>
      rw [hfound] at hsome
      exact (hsome rfl).elim
    | some job =>
      rw [hfound] at hother
      exact hs.agree_finish hfound fun hk => hother (List.mem_singleton.2 (by rw [← CacheKey.ext_text hk]))
  | cancel id =>
    rw [subjects] at hother
    refine hs.agree_cancel (fun f hf hid => ?_) fun hany job hjob hid => ?_
    · obtain ⟨f, hm, rfl⟩ := List.mem_map.1 hf
      obtain ⟨hf, hk⟩ := List.mem_filter.1 hm
      rw [if_pos (List.any_eq_true.2 ⟨f, hf, decide_eq_true hid⟩)] at hother
      exact hother (List.mem_map.2 ⟨f, List.mem_filter.2 ⟨hf, decide_eq_true hid⟩,
        by rw [CacheKey.ext_text (of_decide_eq_true hk)]⟩)
    · obtain ⟨hjob, hk⟩ := List.mem_filter.1 hjob
      rw [hany, if_neg Bool.false_ne_true] at hother
      refine Bool.of_not_eq_false fun hleft => hother ?_
      exact List.mem_map.2 ⟨job, List.mem_filter.2 ⟨hjob, by simp [hid, hleft]⟩,
        by rw [CacheKey.ext_text (of_decide_eq_true hk)]⟩
  | fetch | refresh | get | set | invalidate | negativeFlag | isQueued =>
    exact hs.agree_named ha rfl fun he => hother (he ▸ List.mem_singleton.2 rfl)
  | _ => exact (hsome rfl).elim

theorem Attended.inFlight_or (h : s.Attended) (key : CacheKey) :
    s.cache.gate.isInFlight key.text = true ∨ s.waitingFor key = [] := by
  cases hwaiting : s.waitingFor key with
  | nil => exact .inr rfl
  | cons call calls =>
    obtain ⟨f, hf, -⟩ := List.mem_map.1 (hwaiting ▸ List.mem_cons_self : call ∈ s.waitingFor key)
    obtain ⟨hf, hk⟩ := List.mem_filter.1 hf
    refine .inl (Gate.isInFlight_iff.2 ?_)
    rw [← of_decide_eq_true hk]
    exact (h f hf).2

/-- **A step that concerns other keys** goes unnoticed, and with the poll after
it: whoever waits for the key waits for a computation that goes on. -/
theorem Fit.agree_erased (hs : s.Fit keys) (hattended : s.Attended) (ha : Names keys a)
    (hforeign : s.isForeign key a = true) : Agree key s (s.perform a).2.settle.2 ∧
      ((s.perform a).2.readyFor key).map (fun f => (f.id, ((s.perform a).2.resume f).1)) = [] := by
  have hagree := hs.agree_foreign ha hforeign
  have hs' := hs.perform ha
  have hnone := hattended.inFlight_or key
  rw [← hagree.inFlight hs.owned hs'.owned, ← hagree.waiting] at hnone
  obtain ⟨hsettle, hevents⟩ := hs'.agree_settle hnone
  exact ⟨hagree.trans hsettle, hevents⟩

end Session

end FizzService
