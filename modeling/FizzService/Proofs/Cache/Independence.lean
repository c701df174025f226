/-
What is seen of a key does not depend on the others. Erase from a run all that
concerns other keys: what remains is answered as before, and those who wait
for the key hear the same (`keys_independent`), provided the run names no more
keys than there is room for and takes nothing from the line but by the worker,
which empties it.

The two runs go in step, and are at all times the same to the key. A step that
both make keeps that (`Agree.perform`, `Agree.settle`) and is answered alike
(`Agree.reply`); a step that only the full run makes goes unnoticed
(`Fit.agree_erased`).
-/
import FizzService.Proofs.Cache.Agree

namespace FizzService

/-- An action that deals with whichever keys there are: it takes the first in
line, or looks whether any is in flight. -/
def Action.isShared : Action → Bool
  | .nextRefresh | .drain _ => true
  | _ => false

/-- An action that is answered with a count over all keys. -/
def Action.isTally : Action → Bool
  | .purge | .hitRate => true
  | _ => false

namespace ResponseCache

variable {key : CacheKey} {now : Instant}

/-- What the worker writes of a key when it empties the line. -/
theorem filter_roundsWrites (compute : Compute) {n : Nat} {c : ResponseCache} (hn : c.queue.line.length = n)
    (hnodup : c.queue.line.Nodup) : (roundsWrites now compute n c).filter (·.concerns key) =
      if key ∈ c.queue.line ∧ c.gate.isInFlight key.text = false then Role.owner.writes key (compute key.params)
      else [] := by
  induction n generalizing c with
  | zero => simp [roundsWrites, List.length_eq_zero_iff.1 hn]
  | succ n ih =>
    obtain ⟨k, rest, hline⟩ := List.exists_cons_of_length_eq_add_one hn
    have hrest : (c.workOne now compute).queue.line = rest := by
      rw [queue_workOne, RefreshQueue.line_dequeue, hline, List.tail_cons]
    have hgate : (c.workOne now compute).gate.isInFlight key.text = c.gate.isInFlight key.text := by
      rw [Bool.eq_iff_iff, Gate.isInFlight_iff, Gate.isInFlight_iff, (c.gate_workOne now compute).1]
    have hround : (c.roundWrites compute).filter (·.concerns key) =
        if k.text = key.text ∧ c.gate.isInFlight key.text = false then Role.owner.writes key (compute key.params)
        else [] := by
      rw [roundWrites, roundKey?, hline, List.head?_cons, Option.filter_some]
      by_cases hk : k.text = key.text
      · obtain rfl := CacheKey.ext_text hk
        cases c.gate.isInFlight k.text with
        | true => simp
        | false => simp [Session.filter_writes]
      · cases c.gate.isInFlight k.text with
        | true => simp [hk]
        | false => simp [Session.filter_writes, hk]
    rw [hline] at hnodup
    obtain ⟨hnot, hnodup⟩ := List.nodup_cons.1 hnodup
    have hlength : (c.workOne now compute).queue.line.length = n := by
      rw [hrest]
      simpa [hline] using hn
    rw [roundsWrites, List.filter_append, hround, ih hlength (hrest ▸ hnodup), hrest, hgate, hline]
    by_cases hk : k.text = key.text
    · obtain rfl := CacheKey.ext_text hk
      simp [hnot]
    · simp [hk, show ¬ key = k from fun he => hk (he ▸ rfl)]

end ResponseCache

namespace Session

variable {s t : Session} {key : CacheKey} {keys : List String} {a : Action}

/-! ## What remains -/

theorem isForeign_eq_false : s.isForeign key a = false ↔ s.subjects a = [] ∨ key.params ∈ s.subjects a := by
  simp only [isForeign, decide_eq_false_iff_not, Decidable.not_and_iff_not_or_not, ne_eq, Decidable.not_not]

/-- What remains names the key, if it names any. -/
theorem params_of_kept (hkept : s.isForeign key a = false) {params : Params} (hnamed : a.params? = some params) :
    params = key.params := by
  have hsubjects : s.subjects a = [params] := by
    cases a <;> first | cases hnamed; rfl | cases hnamed
  rw [isForeign_eq_false, hsubjects] at hkept
  rcases hkept with hnil | hm
  · cases hnil
  · exact (List.mem_singleton.1 hm).symm

theorem text_of_params {key' : CacheKey} (h : key'.params = key.params) : key'.text = key.text := by
  rw [key'.text_eq, key.text_eq, h]

theorem names_of_kept (hkept : s.isForeign key a = false) : Names [key.text] a := by
  intro params hnamed
  rw [params_of_kept hkept hnamed, CacheKey.ofParams_params]
  exact List.mem_singleton_self _

theorem Confined.runningFor_eq (h : t.Confined [key.text]) : t.runningFor key = t.running :=
  List.filter_eq_self.2 fun job hjob => decide_eq_true (List.mem_singleton.1 (h.running job hjob))

/-- The computation that remains to be ended is the same. -/
theorem Agree.found (h : Agree key s t) (hc : t.Confined [key.text]) {id : CallId}
    (hkept : s.isForeign key (.finish id) = false) :
    (∀ job, s.running.find? (·.id = id) = some job → job.key = key) ∧
      t.running.find? (·.id = id) = s.running.find? (·.id = id) := by
  have hkey : ∀ job, s.running.find? (·.id = id) = some job → job.key = key := by
    intro job hfound
    rw [isForeign_eq_false, subjects, hfound] at hkept
    rcases hkept with hnil | hm
    · cases hnil
    · exact CacheKey.ext_text (text_of_params (List.mem_singleton.1 hm).symm)
  refine ⟨hkey, ?_⟩
  rw [← hc.runningFor_eq, h.running]
  exact find?_filter_of fun job hfound => decide_eq_true (congrArg CacheKey.text (hkey job hfound))

/-- Where those whom an action concerns are of the key, if any, some are left
among those of the key. -/
theorem any_filter_kept {α : Type} {l : List α} {p : α → Bool} {f : α → CacheKey}
    (h : (l.filter p).map (fun a => (f a).params) = [] ∨ key.params ∈ (l.filter p).map fun a => (f a).params) :
    (l.filter fun a => (f a).text = key.text).any p = l.any p := by
  rw [Bool.eq_iff_iff, List.any_eq_true, List.any_eq_true]
  constructor
  · rintro ⟨a, ha, hp⟩
    exact ⟨a, (List.mem_filter.1 ha).1, hp⟩
  · rintro ⟨a, ha, hp⟩
    rcases h with hnil | hm
    · exact absurd hp (List.filter_eq_nil_iff.1 (List.map_eq_nil_iff.1 hnil) a ha)
    · obtain ⟨b, hb, hk⟩ := List.mem_map.1 hm
      obtain ⟨hb, hp⟩ := List.mem_filter.1 hb
      exact ⟨b, List.mem_filter.2 ⟨hb, decide_eq_true (text_of_params hk)⟩, hp⟩

/-- The caller that remains to leave waits in both, or in neither. -/
theorem Agree.waits (h : Agree key s t) (hc : t.Confined [key.text]) {id : CallId}
    (hkept : s.isForeign key (.cancel id) = false) : t.waiting.any (·.id = id) = s.waiting.any (·.id = id) := by
  have hfull : (s.waitingFor key).any (·.1 = id) = s.waiting.any (·.id = id) := by
    rw [waitingFor, List.any_map]
    refine any_filter_kept (p := fun f : WaitingFetch => decide (f.id = id)) ?_
    rw [isForeign_eq_false, subjects] at hkept
    cases hany : s.waiting.any (·.id = id) with
    | true => rwa [hany] at hkept
    | false =>
      rw [List.any_eq_false] at hany
      exact .inl (List.map_eq_nil_iff.2 (List.filter_eq_nil_iff.2 hany))
  have hall : t.waiting.filter (·.key.text = key.text) = t.waiting :=
    List.filter_eq_self.2 fun f hf => decide_eq_true (List.mem_singleton.1 (hc.waiting f hf))
  rw [← hfull, ← h.waiting, waitingFor, hall, List.any_map]
  rfl

/-- So does the caller of an open computation. -/
theorem Agree.leaves (h : Agree key s t) (hc : t.Confined [key.text]) {id : CallId}
    (hkept : s.isForeign key (.cancel id) = false) (hnone : s.waiting.any (·.id = id) = false) :
    (t.running.any fun job => job.id = id && !job.abandoned) =
      s.running.any fun job => job.id = id && !job.abandoned := by
  rw [← hc.runningFor_eq, h.running]
  rw [isForeign_eq_false, subjects, hnone, if_neg Bool.false_ne_true] at hkept
  exact any_filter_kept hkept

/-! ## A step of both -/

/-- An action that both take accesses the key in the same way. -/
theorem Agree.accesses (h : Agree key s t) (hs : s.Fit keys) (ht : t.Fit [key.text])
    (hkept : s.isForeign key a = false) (hshared : a.isShared = false) :
    (t.accesses a).filter (·.concerns key) = (s.accesses a).filter (·.concerns key) := by
  cases a with
  | fetch id params compute hold =>
    obtain rfl := params_of_kept hkept rfl
    simp only [Session.accesses, CacheKey.ofParams_params, h.enter hs.owned ht.owned]
  | refresh id params compute hold =>
    obtain rfl := params_of_kept hkept rfl
    simp only [Session.accesses, CacheKey.ofParams_params, h.inFlight hs.owned ht.owned]
  | finish id => simp only [Session.accesses, (h.found ht.confined hkept).2]
  | advance time => simp only [Session.accesses, sweeps, h.sweep, h.now]
  | drain => cases hshared
  | work compute =>
    simp only [Session.accesses, ResponseCache.filter_roundsWrites compute rfl ht.line.1.nodup,
      ResponseCache.filter_roundsWrites compute rfl hs.line.1.nodup, h.line, h.inFlight hs.owned ht.owned]
  | _ => rfl

theorem Agree.now_perform (h : Agree key s t) (hshared : a.isShared = false) :
    (t.perform a).2.now = (s.perform a).2.now := by
  rw [Session.now_perform, Session.now_perform]
  cases a with
  | drain => cases hshared
  | advance time => exact congrArg (· + time) h.now
  | _ => exact h.now

theorem Agree.sweep_perform (h : Agree key s t) (hshared : a.isShared = false) :
    (t.perform a).2.sweep = (s.perform a).2.sweep := by
  rw [Session.sweep_perform, Session.sweep_perform]
  cases a with
  | drain => cases hshared
  | advance time => simp only [h.sweep, h.now]
  | startSweep timer interval => simp only [Session.startSweep, h.now]
  | stopSweep => rfl
  | _ => exact h.sweep

theorem Fit.line_fetch (hs : s.Fit keys) (hkey : key.text ∈ keys) (id : CallId) (compute : Compute) (hold : Bool) :
    key ∈ (s.perform (.fetch id key.params compute hold)).2.cache.queue.line ↔
      key ∈ s.cache.queue.line ∨ s.cache.wantsRefresh s.now key = true := by
  rw [queue_perform]
  simp only [CacheKey.ofParams_params]
  rw [hs.line.1.mem_enqueueAll hs.confined.line hs.line.2]
  · simp
  · intro k hk
    rw [List.mem_singleton.1 (List.mem_filter.1 hk).1]
    exact hkey

theorem Agree.line_perform (h : Agree key s t) (hs : s.Fit keys) (ht : t.Fit [key.text]) (ha : Names keys a)
    (hkept : s.isForeign key a = false) (hshared : a.isShared = false) :
    key ∈ (t.perform a).2.cache.queue.line ↔ key ∈ (s.perform a).2.cache.queue.line := by
  cases a with
  | fetch id params compute hold =>
    obtain rfl := params_of_kept hkept rfl
    have hkey : key.text ∈ keys := key.ofParams_params ▸ ha _ rfl
    rw [ht.line_fetch (List.mem_singleton_self _), hs.line_fetch hkey, h.line, h.wantsRefresh hs.owned ht.owned]
  | nextRefresh => cases hshared
  | work compute =>
    rw [queue_perform, queue_perform]
    simp only [ResponseCache.line_work]
  | _ =>
    rw [queue_perform, queue_perform]
    exact h.line

theorem Agree.running_perform (h : Agree key s t) (hs : s.Fit keys) (ht : t.Fit [key.text])
    (hkept : s.isForeign key a = false) :
    (t.perform a).2.runningFor key = (s.perform a).2.runningFor key := by
  have hrunning : t.running.filter (·.key.text = key.text) = s.running.filter (·.key.text = key.text) := h.running
  rw [runningFor, runningFor, Session.running_perform, Session.running_perform]
  cases a with
  | fetch id params compute hold =>
    obtain rfl := params_of_kept hkept rfl
    simp only [List.filter_append, hrunning, fetchOpens, CacheKey.ofParams_params, h.enter hs.owned ht.owned]
  | refresh id params compute hold =>
    obtain rfl := params_of_kept hkept rfl
    simp only [List.filter_append, hrunning, CacheKey.ofParams_params, h.inFlight hs.owned ht.owned]
  | finish id =>
    obtain ⟨hkey, hfound⟩ := h.found ht.confined hkept
    have hof : ∀ job, s.running.find? (·.id = id) = some job → decide (job.key.text = key.text) = true :=
      fun job hjob => decide_eq_true (congrArg CacheKey.text (hkey job hjob))
    refine (filter_eraseP (hfound ▸ hof)).trans ?_
    rw [hrunning]
    exact (filter_eraseP hof).symm
  | cancel id =>
    simp only [h.waits ht.confined hkept]
    split
    · exact hrunning
    · rw [runningFor_left, runningFor_left, h.running]
  | _ => exact hrunning

theorem Agree.waiting_perform (h : Agree key s t) (hs : s.Fit keys) (ht : t.Fit [key.text])
    (hkept : s.isForeign key a = false) :
    (t.perform a).2.waitingFor key = (s.perform a).2.waitingFor key := by
  have hwaiting : (t.waiting.filter (·.key.text = key.text)).map (·.call) =
      (s.waiting.filter (·.key.text = key.text)).map (·.call) := h.waiting
  change ((t.perform a).2.waiting.filter _).map (·.call) = ((s.perform a).2.waiting.filter _).map (·.call)
  rw [Session.waiting_perform, Session.waiting_perform]
  cases a with
  | fetch id params compute hold =>
    obtain rfl := params_of_kept hkept rfl
    simp only [List.filter_append, List.map_append, hwaiting, filter_fetchWaits, CacheKey.ofParams_params, if_true]
    refine congrArg (_ ++ ·) ?_
    unfold fetchWaits
    rw [h.enter hs.owned ht.owned]
    cases (s.cache.enter s.now key).1 <;> rfl
  | cancel id =>
    refine (waitingFor_left t key id).trans (.trans ?_ (waitingFor_left s key id).symm)
    rw [h.waiting]
  | _ => exact hwaiting

/-- **A step of both** keeps them the same to the key. -/
theorem Agree.perform (h : Agree key s t) (hs : s.Fit keys) (ht : t.Fit [key.text]) (ha : Names keys a)
    (hkept : s.isForeign key a = false) (hshared : a.isShared = false) :
    Agree key (s.perform a).2 (t.perform a).2 where
  config := by rw [(s.perform_performed a).config, (t.perform_performed a).config, h.config]
  now := h.now_perform hshared
  sweep := h.sweep_perform hshared
  record := by
    rw [ht.record_perform (names_of_kept hkept), hs.record_perform ha, h.accesses hs ht hkept hshared, h.config,
      h.now_perform hshared, h.record]
  line := h.line_perform hs ht ha hkept hshared
  running := h.running_perform hs ht hkept
  waiting := h.waiting_perform hs ht hkept

/-- What an action is answered that both take. -/
theorem Agree.reply (h : Agree key s t) (hs : s.Fit keys) (ht : t.Fit [key.text])
    (hkept : s.isForeign key a = false) (hshared : a.isShared = false) (htally : a.isTally = false) :
    (t.perform a).1 = (s.perform a).1 := by
  have hentry : t.cache.stores.entryAt key.text = s.cache.stores.entryAt key.text := congrArg Record.entry h.record
  have hnegative : t.cache.stores.negativeAt key.text = s.cache.stores.negativeAt key.text :=
    congrArg Record.negative h.record
  cases a with
  | fetch id params compute hold =>
    obtain rfl := params_of_kept hkept rfl
    change Reply.call (t.fetch id (.ofParams key.params) compute hold).1 =
      .call (s.fetch id (.ofParams key.params) compute hold).1
    rw [key.ofParams_params, fetch_fst, fetch_fst, h.enter hs.owned ht.owned]
  | refresh id params compute hold =>
    obtain rfl := params_of_kept hkept rfl
    change Reply.call (t.refresh id (.ofParams key.params) compute hold).1 =
      .call (s.refresh id (.ofParams key.params) compute hold).1
    rw [key.ofParams_params, refresh_fst, refresh_fst, h.inFlight hs.owned ht.owned]
  | finish id =>
    change Reply.ended (t.finish id).1 = .ended (s.finish id).1
    have hfound := (h.found ht.confined hkept).2
    cases hjob : s.running.find? (·.id = id) with
    | none => simp only [Session.finish, hfound, hjob]
    | some job => rw [finish_found t id (hfound.trans hjob), finish_found s id hjob]
  | cancel id =>
    change Reply.cancelled (t.cancel id).1 = .cancelled (s.cancel id).1
    unfold Session.cancel
    rw [h.waits ht.confined hkept]
    cases hany : s.waiting.any (·.id = id) with
    | true => rfl
    | false => exact congrArg Reply.cancelled (h.leaves ht.confined hkept hany)
  | get params =>
    obtain rfl := params_of_kept hkept rfl
    change Reply.body (t.cache.stores.get t.now (CacheKey.ofParams key.params).text).1 =
      .body (s.cache.stores.get s.now (CacheKey.ofParams key.params).text).1
    rw [key.ofParams_params, Stores.get_fst, Stores.get_fst, hentry, hnegative, h.now]
  | invalidate params =>
    obtain rfl := params_of_kept hkept rfl
    change Reply.flag (t.cache.stores.invalidate (CacheKey.ofParams key.params).text).1 =
      .flag (s.cache.stores.invalidate (CacheKey.ofParams key.params).text).1
    rw [key.ofParams_params, Stores.invalidate_fst, Stores.invalidate_fst, hentry, hnegative]
  | negativeFlag params =>
    obtain rfl := params_of_kept hkept rfl
    change Reply.negative (t.cache.stores.negativeFlag t.now (CacheKey.ofParams key.params).text).1 =
      .negative (s.cache.stores.negativeFlag s.now (CacheKey.ofParams key.params).text).1
    rw [key.ofParams_params, Stores.negativeFlag_fst, Stores.negativeFlag_fst, hnegative]
  | isQueued params =>
    obtain rfl := params_of_kept hkept rfl
    change Reply.flag (t.cache.queue.isQueued (.ofParams key.params)) =
      .flag (s.cache.queue.isQueued (.ofParams key.params))
    rw [key.ofParams_params, Reply.flag.injEq, Bool.eq_iff_iff, ht.line.1.isQueued_iff, hs.line.1.isQueued_iff,
      h.line]
  | purge | hitRate => cases htally
  | nextRefresh | drain => cases hshared
  | _ => rfl

/-! ## Runs of settled steps -/

/-- The actions of a run, each with the session that takes it. -/
def trace (s : Session) : List Action → List (Session × Action)
  | [] => []
  | a :: run => (s, a) :: trace (s.next ⟨a, true⟩) run

/-- What remains of a run without the actions that concern other keys. -/
def remaining (key : CacheKey) (s : Session) (run : List Action) : List (Session × Action) :=
  (s.trace run).filter fun p => !p.1.isForeign key p.2

/-- What the fetches hear that have waited for a key and go on. -/
def eventsFor (key : CacheKey) (s : Session) (a : Action) : List (CallId × Progress) :=
  (((s.perform a).2.ready.zip (s.step a true).2.1).filter (·.1.key.text = key.text)).map (·.2)

/-- What is seen of a key: the reply, unless it counts over all keys, and what
those hear who have waited. -/
def shows (key : CacheKey) (s : Session) (a : Action) : Option Reply × List (CallId × Progress) :=
  (if a.isTally then none else some (s.step a true).1, eventsFor key s a)

theorem eventsFor_eq (s : Session) (a : Action) : eventsFor key s a =
    ((s.perform a).2.readyFor key).map fun f => (f.id, ((s.perform a).2.resume f).1) := by
  rw [eventsFor, step_events, if_pos rfl, settle_events, readyFor]
  generalize (s.perform a).2 = u
  induction u.ready with
  | nil => rfl
  | cons f fs ih =>
    rw [List.map_cons, List.zip_cons_cons, List.filter_cons, List.filter_cons]
    split
    · rw [List.map_cons, List.map_cons, ih]
    · exact ih

theorem remaining_erased {run : List Action} (h : s.isForeign key a = true) :
    s.remaining key (a :: run) = (s.next ⟨a, true⟩).remaining key run :=
  List.filter_cons_of_neg (by simp [h])

theorem remaining_kept {run : List Action} (h : s.isForeign key a = false) :
    s.remaining key (a :: run) = (s, a) :: (s.next ⟨a, true⟩).remaining key run :=
  List.filter_cons_of_pos (by simp [h])

/-- A step that only one of two sessions makes. -/
theorem Agree.next_erased (h : Agree key s t) (hs : s.Fit keys) (hattended : s.Attended) (ha : Names keys a)
    (hforeign : s.isForeign key a = true) : Agree key (s.next ⟨a, true⟩) t ∧ eventsFor key s a = [] := by
  obtain ⟨hagree, hevents⟩ := hs.agree_erased hattended ha hforeign
  rw [next_eq, if_pos rfl, eventsFor_eq]
  exact ⟨hagree.symm.trans h, hevents⟩

/-- A step that both make. -/
theorem Agree.next_kept (h : Agree key s t) (hs : s.Fit keys) (ht : t.Fit [key.text]) (ha : Names keys a)
    (hkept : s.isForeign key a = false) (hshared : a.isShared = false) :
    Agree key (s.next ⟨a, true⟩) (t.next ⟨a, true⟩) ∧ shows key s a = shows key t a := by
  have hperform := h.perform hs ht ha hkept hshared
  obtain ⟨hagree, hevents⟩ := hperform.settle (hs.perform ha) (ht.perform (names_of_kept hkept))
  rw [next_eq, next_eq, if_pos rfl, if_pos rfl, shows, shows, eventsFor_eq, eventsFor_eq, hevents, step_fst, step_fst]
  refine ⟨hagree, ?_⟩
  cases htally : a.isTally with
  | true => rfl
  | false => rw [h.reply hs ht hkept hshared htally]

/-- Two sessions that are the same to a key, one of them in a run of which the
other takes what remains. -/
theorem Agree.trace {run : List Action} (h : Agree key s t) (hs : s.Fit keys) (hattended : s.Attended)
    (ht : t.Fit [key.text]) (hnames : ∀ a ∈ run, Names keys a) (hshared : ∀ a ∈ run, a.isShared = false) :
    (∀ p ∈ s.trace run, p.1.isForeign key p.2 = true → eventsFor key p.1 p.2 = []) ∧
      (s.remaining key run).map (fun p => shows key p.1 p.2) =
        (t.trace ((s.remaining key run).map (·.2))).map fun p => shows key p.1 p.2 := by
  induction run generalizing s t with
  | nil => exact ⟨fun p hp => (List.not_mem_nil hp).elim, rfl⟩
  | cons a run ih =>
    have ha := hnames a (.head _)
    have hs' : (s.next ⟨a, true⟩).Fit keys := hs.next ha
    have hattended' : (s.next ⟨a, true⟩).Attended := hs.owned.attended_next rfl
    have hnames' : ∀ a ∈ run, Names keys a := fun a hm => hnames a (.tail _ hm)
    have hshared' : ∀ a ∈ run, a.isShared = false := fun a hm => hshared a (.tail _ hm)
    cases hforeign : s.isForeign key a with
    | true =>
      obtain ⟨hagree, hevents⟩ := h.next_erased hs hattended ha hforeign
      obtain ⟨herased, hremaining⟩ := ih hagree hs' hattended' ht hnames' hshared'
      rw [remaining_erased hforeign]
      exact ⟨List.forall_mem_cons.2 ⟨fun _ => hevents, herased⟩, hremaining⟩
    | false =>
      obtain ⟨hagree, hshows⟩ := h.next_kept hs ht ha hforeign (hshared a (.head _))
      have ht' : (t.next ⟨a, true⟩).Fit [key.text] := ht.next (names_of_kept hforeign)
      obtain ⟨herased, hremaining⟩ := ih hagree hs' hattended' ht' hnames' hshared'
      refine ⟨List.forall_mem_cons.2 ⟨fun hp => ?_, herased⟩, ?_⟩
      · cases hforeign.symm.trans hp
      · rw [remaining_kept hforeign]
        exact List.cons_eq_cons.2 ⟨hshows, hremaining⟩

/-- **What is seen of a key does not depend on the others**, in a run that
names no more keys than there is room for in either store and in line. Those
who wait for the key hear nothing from a step that concerns other keys. And
without all such steps, every step that remains is answered as before, and
those who wait hear the same from it. -/
theorem keys_independent {config : CacheConfig} (h : Session.new config = .ok s) {run : List Action}
    {named : List Params} (hnamed : ∀ a ∈ run, ∀ params, a.params? = some params → params ∈ named)
    (hroom : named.length ≤ min (max config.entryMaxSize.toNat 10)
      (min config.negativeMaxSize.toNat config.refreshQueueCapacity.toNat))
    (hshared : ∀ a ∈ run, a.isShared = false) (key : CacheKey) :
    (∀ p ∈ s.trace run, p.1.isForeign key p.2 = true → eventsFor key p.1 p.2 = []) ∧
      (s.remaining key run).map (fun p => shows key p.1 p.2) =
        (s.trace ((s.remaining key run).map (·.2))).map fun p => shows key p.1 p.2 := by
  obtain ⟨hpositive, queue, hs⟩ := new_eq_ok h
  have hnegative : config.negativeMaxSize.toNat ≠ 0 := fun hz => by
    simpa [CacheConfig.isZero, ← UInt64.toNat_inj, hz] using hpositive .negativeMaxSize
  have hqueue : config.refreshQueueCapacity.toNat ≠ 0 := fun hz => by
    simpa [CacheConfig.isZero, ← UInt64.toNat_inj, hz] using hpositive .refreshQueueCapacity
  have hfull : s.Fit (named.map fun params => (CacheKey.ofParams params).text) :=
    .new h (by rw [List.length_map]; exact hroom)
  have halone : s.Fit [key.text] := .new h (by rw [List.length_singleton]; omega)
  have hattended : s.Attended := by
    rw [hs]
    exact fun f hf => (List.not_mem_nil hf).elim
  have hsame : Agree key s s := ⟨rfl, rfl, rfl, rfl, Iff.rfl, rfl, rfl⟩
  exact hsame.trace hfull hattended halone
    (fun a ha params hp => List.mem_map.2 ⟨params, hnamed a ha params hp, rfl⟩) hshared

/-- While a body is computed, a computation of another key crashes. -/
def crossing : List Action :=
  [.fetch "a" default (fun _ => .body ⟨#[7]⟩) true,
    .fetch "b" { (default : Params) with limit := 3 } (fun _ => .crash) true,
    .fetch "c" default (fun _ => .crash) false, .finish "b", .finish "a"]

/-- Whoever waits for the body hears of its end, and hears the same without
the other computation. -/
theorem keys_independent_small :
    let key : CacheKey := .ofParams default
    let seen (trace : List (Session × Action)) := trace.map fun p => shows key p.1 p.2
    (∀ p ∈ small.trace crossing, p.1.isForeign key p.2 = true → eventsFor key p.1 p.2 = []) ∧
      (seen (small.remaining key crossing)).map (·.2.map (·.1)) = [[], [], ["c"]] ∧
      seen (small.trace ((small.remaining key crossing).map (·.2))) = seen (small.remaining key crossing) := by
  have hnamed : ∀ a ∈ crossing, ∀ params, a.params? = some params →
      params ∈ [default, { (default : Params) with limit := 3 }] := by simp [crossing, Action.params?]
  obtain ⟨herased, hseen⟩ := keys_independent new_small hnamed (by decide) (by decide) (.ofParams default)
  exact ⟨herased, by decide +kernel, hseen.symm⟩

end Session

end FizzService
