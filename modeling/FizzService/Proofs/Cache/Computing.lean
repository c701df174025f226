/-
A key that is being computed. While the computation of its owner is open,
other fetches of the key may begin, time may pass, and any step may be made
for other keys (`Between`). Meanwhile the key stays in flight and off the
record, those who have come for it wait, in the order in which they came, and
no compute function is called for it (`Computing.after`).
-/
import FizzService.Proofs.Cache.Filing
import FizzService.Proofs.Cache.Ownership

namespace FizzService

namespace Session

variable {key : CacheKey} {id : CallId} {compute : Compute} {joined : List (CallId × Compute)}
  {s t : Session}

/-- A step that may be made while `key` is being computed. -/
inductive Between (key : CacheKey) (s : Session) : Step → Prop
  /-- Another fetch of the key begins. -/
  | joins (id : CallId) (compute : Compute) (settled : Bool) :
    Between key s ⟨.fetch id key.params compute false, settled⟩
  | advances (time : Duration) (settled : Bool) : Between key s ⟨.advance time, settled⟩
  | fetches (id : CallId) (params : Params) (compute : Compute) (hold : Bool)
    (other : params ≠ key.params) : Between key s ⟨.fetch id params compute hold, true⟩
  | finishes (id : CallId) (other : ∀ job, s.running.find? (·.id = id) = some job → job.key ≠ key) :
    Between key s ⟨.finish id, true⟩
  | sets (params : Params) (body : ByteArray) (other : params ≠ key.params) :
    Between key s ⟨.set params body, true⟩
  | invalidates (params : Params) (other : params ≠ key.params) : Between key s ⟨.invalidate params, true⟩
  | gets (params : Params) (other : params ≠ key.params) : Between key s ⟨.get params, true⟩
  | refreshes (id : CallId) (params : Params) (compute : Compute) (hold : Bool)
    (other : params ≠ key.params) : Between key s ⟨.refresh id params compute hold, true⟩

/-- A run of such steps. -/
def AllBetween (key : CacheKey) : Session → List Step → Prop
  | _, [] => True
  | s, t :: run => Between key s t ∧ AllBetween key (s.next t) run

/-- The fetches of a key that begin in a run, each with its compute function. -/
def joiners (key : CacheKey) : List Step → List (CallId × Compute)
  | [] => []
  | t :: run =>
    match t.action with
    | .fetch id params compute _ =>
      if params = key.params then (id, compute) :: joiners key run else joiners key run
    | _ => joiners key run

/-- The fetches that wait for a key, and whether they are to be held open. -/
def waitingFor (s : Session) (key : CacheKey) : List (CallId × Compute × Bool) :=
  (s.waiting.filter (·.key.text = key.text)).map fun f => (f.id, f.compute, f.hold)

/-- A key is being computed, for its owner and those who have come for it
since; nothing is on record for it. -/
structure Computing (key : CacheKey) (id : CallId) (compute : Compute) (joined : List (CallId × Compute))
    (s : Session) : Prop where
  orderly : s.Orderly
  owned : s.Owned
  absent : s.cache.stores.Absent key.text
  owner : s.running.find? (·.id = id) = some ⟨id, key, compute, .fetch, false⟩
  waiting : s.waitingFor key = joined.map fun j => (j.1, j.2, false)

theorem Computing.inFlight (h : s.Computing key id compute joined) : key.text ∈ s.cache.gate.inFlight := by
  rw [h.owned.registry, Session.owned]
  exact List.mem_map_of_mem (List.mem_filter.2 ⟨List.mem_of_find?_eq_some h.owner, rfl⟩)

/-! ## A poll while the key is in flight -/

theorem Owned.mem_ready {f : WaitingFetch} (h : s.Owned) :
    f ∈ s.ready ↔ f ∈ s.waiting ∧ f.key.text ∉ s.cache.gate.inFlight := by
  rw [ready, List.mem_filter]
  refine and_congr_right fun hf => ?_
  obtain ⟨hawaits, hsound⟩ := h.waits f hf
  rw [hsound.poll_isNone, hawaits]
  simp [Awaited.holds, ← Gate.isInFlight_iff]

theorem Owned.waitingFor_settle (h : s.Owned) (hk : key.text ∈ s.cache.gate.inFlight) :
    s.settle.2.waitingFor key = s.waitingFor key := by
  have hpoll : ∀ f ∈ s.waiting, f.key.text = key.text → (f.waiter.poll s.cache.gate).isNone = false := by
    intro f hf he
    obtain ⟨hawaits, hsound⟩ := h.waits f hf
    rw [hsound.poll_isNone, hawaits, Awaited.holds, he, Gate.isInFlight_iff.2 hk]
    rfl
  rw [waitingFor, waitingFor, waiting_settle, kept]
  generalize s.waiting = fs at hpoll ⊢
  induction fs with
  | nil => rfl
  | cons f fs ih =>
    have ih := ih fun f' hf' => hpoll f' (.tail _ hf')
    have hself := hpoll f (.head _)
    rw [List.filterMap_cons, List.filter_cons]
    cases hp : f.waiter.poll s.cache.gate with
    | none =>
      rw [hp] at hself
      have hne : f.key.text ≠ key.text := fun he => by cases hself he
      simp only [Option.map_none, hne, decide_false, Bool.false_eq_true, if_false]
      exact ih
    | some w =>
      simp only [Option.map_some, List.filter_cons]
      split
      · rw [List.map_cons, List.map_cons, ih]
      · exact ih

theorem Computing.settle (h : s.Computing key id compute joined) :
    s.settle.2.Computing key id compute joined := by
  refine ⟨h.orderly.settle, h.owned.settle, ?_, ?_, ?_⟩
  · rw [stores_settle]
    refine h.absent.replay fun a ha => ?_
    obtain ⟨f, -, rfl⟩ := List.mem_map.1 ha
    exact fun hf => hf
  · rw [running_settle, List.find?_append, h.owner]
    rfl
  · rw [h.owned.waitingFor_settle h.inFlight]
    exact h.waiting

/-- Who goes on in a poll while the key is in flight did not wait for it. -/
theorem Computing.calls_settle (h : s.Computing key id compute joined) :
    (s.ready.flatMap s.called).filter (·.1.text = key.text) = [] := by
  refine List.filter_eq_nil_iff.2 fun c hc he => ?_
  obtain ⟨f, hf, hcalled⟩ := List.mem_flatMap.1 hc
  have hkey : c.1 = f.key := by
    unfold called at hcalled
    split at hcalled
    · cases hcalled
    · rw [List.mem_singleton.1 hcalled]
  refine (h.owned.mem_ready.1 hf).2 ?_
  rw [← hkey, of_decide_eq_true he]
  exact h.inFlight

/-- A poll after an action adds nothing to what the action does for the key. -/
theorem Computing.of_perform {a : Action} (h : (s.perform a).2.Computing key id compute joined)
    (settled : Bool) (ha : settled = false → (s.perform a).2.Attended) :
    (s.next ⟨a, settled⟩).Computing key id compute joined ∧ (s.next ⟨a, settled⟩).Attended ∧
      (s.stepCalls ⟨a, settled⟩).filter (·.1.text = key.text) =
        (s.calls a).filter (·.1.text = key.text) := by
  rw [next_eq, stepCalls, List.filter_append]
  cases settled with
  | true =>
    refine ⟨h.settle, h.owned.attended_settle, ?_⟩
    rw [if_pos rfl, h.calls_settle, List.append_nil]
  | false =>
    refine ⟨h, ha rfl, ?_⟩
    rw [if_neg Bool.false_ne_true, List.filter_nil, List.append_nil]

/-! ## An action for another key -/

/-- An action that does not concern a key, though it may be computed. -/
structure Elsewhere (key : CacheKey) (s : Session) (a : Action) : Prop where
  accesses : ∀ access ∈ s.accesses a, ¬ access.Renews key
  params : a.params? ≠ some key.params
  calls : ∀ c ∈ s.calls a, c.1.text ≠ key.text
  finishes : ∀ id job, a = .finish id → s.running.find? (·.id = id) = some job → job.key ≠ key
  stays : ∀ id, a ≠ .cancel id

theorem not_renews_writes {role : Role} {key' : CacheKey} {outcome : Outcome} (h : key' ≠ key) :
    ∀ access ∈ role.writes key' outcome, ¬ access.Renews key := by
  intro access ha
  cases role <;> cases outcome <;> simp only [Role.writes, List.not_mem_nil, List.mem_singleton] at ha
  subst ha
  exact h

theorem ofParams_ne {params : Params} (h : params ≠ key.params) : CacheKey.ofParams params ≠ key :=
  fun he => h (by rw [← he]; rfl)

theorem ofParams_text_ne {params : Params} (h : params ≠ key.params) :
    (CacheKey.ofParams params).text ≠ key.text := fun he => ofParams_ne h (CacheKey.ext_text he)

theorem elsewhere_advance (time : Duration) : Elsewhere key s (.advance time) where
  accesses access ha := by
    rw [mem_sweeps ha]
    exact fun hf => hf
  params := by simp [Action.params?]
  calls c hc := by cases hc
  finishes _ _ he := by cases he
  stays _ he := by cases he

theorem elsewhere_fetch {params : Params} (other : params ≠ key.params) {hold : Bool} :
    Elsewhere key s (.fetch id params compute hold) where
  accesses access ha := by
    simp only [Session.accesses, List.mem_cons] at ha
    rcases ha with rfl | ha
    · exact fun hf => hf
    · split at ha
      · split at ha
        · cases ha
        · exact not_renews_writes (ofParams_ne other) access ha
      · cases ha
  params := by simpa [Action.params?] using other
  calls c hc := by
    simp only [Session.calls] at hc
    split at hc
    · rw [List.mem_singleton.1 hc]
      exact ofParams_text_ne other
    · rw [List.mem_singleton.1 hc]
      exact ofParams_text_ne other
    · cases hc
  finishes _ _ he := by cases he
  stays _ he := by cases he

theorem elsewhere_refresh {params : Params} (other : params ≠ key.params) {hold : Bool} :
    Elsewhere key s (.refresh id params compute hold) where
  accesses access ha := by
    simp only [Session.accesses] at ha
    split at ha
    · cases ha
    · exact not_renews_writes (ofParams_ne other) access ha
  params := by simpa [Action.params?] using other
  calls c hc := by
    simp only [Session.calls] at hc
    split at hc
    · cases hc
    · rw [List.mem_singleton.1 hc]
      exact ofParams_text_ne other
  finishes _ _ he := by cases he
  stays _ he := by cases he

theorem elsewhere_finish (other : ∀ job, s.running.find? (·.id = id) = some job → job.key ≠ key) :
    Elsewhere key s (.finish id) where
  accesses access ha := by
    simp only [Session.accesses] at ha
    split at ha
    · rename_i job found
      exact not_renews_writes (other job found) access ha
    · cases ha
  params := by simp [Action.params?]
  calls c hc := by cases hc
  finishes _ job he found := by
    cases he
    exact other job found
  stays _ he := by cases he

/-- The simple accesses to the stores. -/
theorem elsewhere_access {a : Action} {access : Access} (haccesses : s.accesses a = [access])
    (hother : ¬ access.Renews key) (hparams : a.params? ≠ some key.params) (hcalls : s.calls a = [])
    (hfinish : ∀ id, a ≠ .finish id) (hstays : ∀ id, a ≠ .cancel id) : Elsewhere key s a where
  accesses access' ha := by
    rw [haccesses] at ha
    rw [List.mem_singleton.1 ha]
    exact hother
  params := hparams
  calls c hc := by rw [hcalls] at hc; cases hc
  finishes id _ he := (hfinish id he).elim
  stays := hstays

/-- Whoever comes between either joins or is elsewhere. -/
theorem Between.cases {t : Step} (h : Between key s t) :
    (∃ id compute settled, t = ⟨.fetch id key.params compute false, settled⟩) ∨
      joiners key [t] = [] ∧ Elsewhere key s t.action ∧
        (t.settled = true ∨ ∃ time settled, t = ⟨.advance time, settled⟩) := by
  cases h with
  | joins id compute settled => exact .inl ⟨id, compute, settled, rfl⟩
  | advances time settled => exact .inr ⟨rfl, elsewhere_advance time, .inr ⟨time, settled, rfl⟩⟩
  | fetches id params compute hold other =>
    exact .inr ⟨if_neg other, elsewhere_fetch other, .inl rfl⟩
  | finishes id other => exact .inr ⟨rfl, elsewhere_finish other, .inl rfl⟩
  | sets params body other =>
    exact .inr ⟨rfl, elsewhere_access rfl (ofParams_ne other) (by simpa [Action.params?] using other) rfl
      (by simp) (by simp), .inl rfl⟩
  | invalidates params other =>
    exact .inr ⟨rfl, elsewhere_access rfl (ofParams_ne other) (by simpa [Action.params?] using other) rfl
      (by simp) (by simp), .inl rfl⟩
  | gets params other =>
    exact .inr ⟨rfl, elsewhere_access rfl (fun hf => hf) (by simpa [Action.params?] using other) rfl
      (by simp) (by simp), .inl rfl⟩
  | refreshes id params compute hold other =>
    exact .inr ⟨rfl, elsewhere_refresh other, .inl rfl⟩

theorem find?_eraseP {α : Type} {p q : α → Bool} (h : ∀ a, p a = true → q a = false) (l : List α) :
    (l.eraseP p).find? q = l.find? q := by
  induction l with
  | nil => rfl
  | cons a l ih =>
    cases hp : p a with
    | true => rw [List.eraseP_cons_of_pos hp, List.find?_cons, h a hp]
    | false =>
      rw [List.eraseP_cons_of_neg (by simp [hp]), List.find?_cons, List.find?_cons, ih]

/-- The owner's computation stays open: one that ends has another name, since
it has another key. -/
theorem Elsewhere.owner_open {a : Action} {job : OpenComputation} (he : Elsewhere key s a)
    (hm : s.Moves t a) (howner : s.running.find? (·.id = id) = some job) (hkey : job.key = key) :
    t.running.find? (·.id = id) = some job := by
  cases hm with
  | passes _ _ _ running => rw [running, howner]
  | opens _ _ _ _ _ running => rw [running, List.find?_append, howner]; rfl
  | waits _ _ _ _ _ _ running => rw [running, howner]
  | closes id' job' found _ running =>
    have hid : id' ≠ id := by
      rintro rfl
      exact he.finishes id' job rfl howner hkey
    rw [running, find?_eraseP (fun job'' hjob => ?_), howner]
    rw [of_decide_eq_true hjob]
    exact decide_eq_false hid
  | leaves id' => exact (he.stays id' rfl).elim
  | abandons id' => exact (he.stays id' rfl).elim

theorem Elsewhere.waitingFor_eq {a : Action} (he : Elsewhere key s a) (hm : s.Moves t a) :
    t.waitingFor key = s.waitingFor key := by
  unfold waitingFor
  cases hm with
  | passes _ _ _ _ waiting => rw [waiting]
  | opens _ _ _ _ _ _ waiting => rw [waiting]
  | waits _ f named _ _ _ _ waiting =>
    have hother : f.key.text ≠ key.text := fun ht => he.params (by rw [named, CacheKey.ext_text ht])
    rw [waiting, List.filter_append, List.filter_cons, if_neg (by simpa using hother)]
    simp
  | closes _ _ _ _ _ waiting => rw [waiting]
  | leaves id' => exact (he.stays id' rfl).elim
  | abandons id' => exact (he.stays id' rfl).elim

/-- **An action elsewhere leaves the computation of the key and those who
wait for it alone.** -/
theorem Computing.elsewhere {a : Action} (h : s.Computing key id compute joined) (he : Elsewhere key s a) :
    (s.perform a).2.Computing key id compute joined := by
  have hp := s.perform_performed a
  refine ⟨h.orderly.perform a, h.owned.moves hp.moves, ?_, he.owner_open hp.moves h.owner rfl, ?_⟩
  · rw [hp.stores]
    exact h.absent.replay he.accesses
  · rw [he.waitingFor_eq hp.moves]
    exact h.waiting

/-! ## Another fetch of the key -/

theorem Computing.lookup (h : s.Computing key id compute joined) :
    (s.cache.lookup s.now key).1 = .missing := by
  rw [ResponseCache.lookup_fst, h.absent.find_fst]
  rfl

/-- It waits, and calls nothing. -/
theorem Computing.joins (h : s.Computing key id compute joined) (id' : CallId) (compute' : Compute) :
    (s.perform (.fetch id' key.params compute' false)).2.Computing key id compute
        (joined ++ [(id', compute')]) ∧
      s.calls (.fetch id' key.params compute' false) = [] ∧
      (s.Attended → (s.perform (.fetch id' key.params compute' false)).2.Attended) := by
  have hp := s.perform_performed (.fetch id' key.params compute' false)
  have htaken : s.cache.gate.isInFlight key.text = true := Gate.isInFlight_iff.2 h.inFlight
  have hfetch := fetch_waits s id' key compute' false h.lookup htaken
  have henter : (s.cache.enter s.now key).1 = .waits := by
    rw [ResponseCache.enter_eq, h.lookup]
    simp only [htaken, if_true]
  have hperform : (s.perform (.fetch id' key.params compute' false)).2 =
      (s.fetch id' key compute' false).2 := by
    simp only [perform, CacheKey.ofParams_params]
  have hgate : (s.fetch id' key compute' false).2.cache.gate = s.cache.gate := by
    rw [hfetch]
    exact s.cache.gate_lookup s.now key
  refine ⟨⟨h.orderly.perform _, h.owned.moves hp.moves, ?_, ?_, ?_⟩, ?_, fun hattended => ?_⟩
  · rw [hp.stores]
    refine h.absent.replay fun a ha => ?_
    simp only [accesses, CacheKey.ofParams_params, henter, List.mem_singleton] at ha
    rw [ha]
    exact fun hf => hf
  · rw [hperform, hfetch]
    exact h.owner
  · rw [hperform, hfetch]
    simp only [waitingFor, List.filter_append, List.map_append, List.filter_cons, decide_true, if_true,
      List.filter_nil, List.map_cons, List.map_nil]
    exact congrArg (· ++ _) h.waiting
  · simp only [calls, CacheKey.ofParams_params, henter]
  · intro f hf
    rw [hperform] at hf ⊢
    rw [hgate]
    rw [hfetch, List.mem_append, List.mem_singleton] at hf
    rcases hf with hf | rfl
    · exact hattended f hf
    · exact ⟨rfl, h.inFlight⟩

/-! ## Until the computation ends -/

/-- Nobody is left waiting by an action that neither begins nor ends a
computation. -/
theorem Attended.perform {a : Action} (h : s.Attended) (ha : a.params? = none) (hfinish : ∀ id, a ≠ .finish id) :
    (s.perform a).2.Attended := by
  have hmoves := (s.perform_performed a).moves
  intro f hf
  generalize (s.perform a).2 = t at hmoves hf ⊢
  cases hmoves with
  | passes _ inFlight _ _ waiting =>
    rw [inFlight]
    exact h f (waiting ▸ hf)
  | opens _ _ named => rw [ha] at named; cases named
  | waits _ _ named => rw [ha] at named; cases named
  | closes id => exact (hfinish id rfl).elim
  | leaves _ gate _ waiting =>
    rw [gate]
    rw [waiting] at hf
    exact h f (List.mem_filter.1 hf).1
  | abandons _ gate _ waiting =>
    rw [gate]
    exact h f (waiting ▸ hf)

theorem joiners_cons (key : CacheKey) (t : Step) (run : List Step) :
    joiners key (t :: run) = joiners key [t] ++ joiners key run := by
  simp only [joiners]
  split
  · split <;> rfl
  · rfl

/-- One step: the key stays as it is but for a fetch that joins. -/
theorem Computing.next {t : Step} (h : s.Computing key id compute joined) (ha : s.Attended)
    (hb : Between key s t) :
    (s.next t).Computing key id compute (joined ++ joiners key [t]) ∧ (s.next t).Attended ∧
      (s.stepCalls t).filter (·.1.text = key.text) = [] := by
  rcases hb.cases with ⟨id', compute', settled, rfl⟩ | ⟨hnone, helsewhere, hsettled⟩
  · obtain ⟨hjoined, hcalls, hattended⟩ := h.joins id' compute'
    have hone : joiners key [⟨.fetch id' key.params compute' false, settled⟩] = [(id', compute')] := by
      simp [joiners]
    obtain ⟨hnext, hattended', hfilter⟩ := hjoined.of_perform settled fun _ => hattended ha
    rw [hone]
    exact ⟨hnext, hattended', by rw [hfilter, hcalls]; rfl⟩
  · have hunsettled : t.settled = false → (s.perform t.action).2.Attended := by
      intro hf
      rcases hsettled with hsettled | ⟨time, settled, rfl⟩
      · rw [hsettled] at hf
        cases hf
      · exact ha.perform rfl (by simp)
    obtain ⟨hnext, hattended, hfilter⟩ := (h.elsewhere helsewhere).of_perform t.settled hunsettled
    rw [hnone, List.append_nil]
    refine ⟨hnext, hattended, hfilter.trans (List.filter_eq_nil_iff.2 fun c hc => ?_)⟩
    simpa using helsewhere.calls c hc

/-- **Many steps**: all who came for the key wait, in the order in which they
came, and no compute function has been called for it. -/
theorem Computing.after {run : List Step} (h : s.Computing key id compute joined) (ha : s.Attended)
    (hb : AllBetween key s run) :
    (s.after run).Computing key id compute (joined ++ joiners key run) ∧ (s.after run).Attended ∧
      (s.runCalls run).filter (·.1.text = key.text) = [] := by
  induction run generalizing s joined with
  | nil =>
    refine ⟨?_, ha, rfl⟩
    rw [joiners, List.append_nil]
    exact h
  | cons t run ih =>
    obtain ⟨hbetween, hrest⟩ := hb
    obtain ⟨hnext, hattended, hcalls⟩ := h.next ha hbetween
    obtain ⟨hafter, hattended', hcalls'⟩ := ih hnext hattended hrest
    rw [joiners_cons, ← List.append_assoc, runCalls, List.filter_append, hcalls]
    exact ⟨hafter, hattended', hcalls'⟩

/-! ## The beginning -/

/-- What a held fetch makes of a session in which its key is neither in flight
nor on record. -/
theorem perform_fetch_owner (id : CallId) (compute : Compute) (hfree : key.text ∉ s.cache.gate.inFlight)
    (hmissing : (s.cache.lookup s.now key).1 = .missing)
    (ht : t = (s.perform (.fetch id key.params compute true)).2) :
    t.cache.stores.Absent key.text ∧ t.cache.gate.inFlight = s.cache.gate.inFlight ++ [key.text] ∧
      t.running = s.running ++ [⟨id, key, compute, .fetch, false⟩] ∧ t.waiting = s.waiting ∧
      s.calls (.fetch id key.params compute true) = [(key, compute)] := by
  have hk : s.cache.gate.isInFlight key.text = false := by simpa [← Gate.isInFlight_iff] using hfree
  have hfetch := fetch_owner s id key compute true hmissing hk
  have henter : (s.cache.enter s.now key).1 = .owner := by
    rw [ResponseCache.enter_eq, hmissing]
    simp [hk]
  have hnothing : (s.cache.stores.find s.now key.text).1 = .nothing := by
    rw [ResponseCache.lookup_fst] at hmissing
    cases hfound : (s.cache.stores.find s.now key.text).1 with
    | nothing => rfl
    | entry => rw [hfound] at hmissing; cases hmissing
    | negative record => rw [hfound] at hmissing; cases record <;> cases hmissing
  have hstores := s.cache.stores_lookup s.now key
  simp only [perform, CacheKey.ofParams_params, hfetch] at ht
  subst ht
  refine ⟨?_, rfl, rfl, rfl, ?_⟩
  · change (s.cache.lookup s.now key).2.stores.Absent key.text
    rw [hstores]
    exact Stores.absent_find hnothing
  · simp only [calls, CacheKey.ofParams_params, henter]

/-- The computation of a key that nobody waits for begins. -/
theorem computing_fetch (horderly : s.Orderly) (howned : s.Owned) (ha : s.Attended)
    (hfree : key.text ∉ s.cache.gate.inFlight) (hmissing : (s.cache.lookup s.now key).1 = .missing)
    (hfresh : id ∉ s.running.map (·.id)) (compute : Compute) (settled : Bool) :
    (s.next ⟨.fetch id key.params compute true, settled⟩).Computing key id compute [] ∧
      (s.next ⟨.fetch id key.params compute true, settled⟩).Attended ∧
      (s.stepCalls ⟨.fetch id key.params compute true, settled⟩).filter (·.1.text = key.text) =
        [(key, compute)] := by
  have hp := s.perform_performed (.fetch id key.params compute true)
  obtain ⟨habsent, hgate, hrunning, hwaiting, hcalls⟩ := perform_fetch_owner id compute hfree hmissing rfl
  have hbegun : (s.perform (.fetch id key.params compute true)).2.Computing key id compute [] := by
    refine ⟨horderly.perform _, howned.moves hp.moves, habsent, ?_, ?_⟩
    · have hnone : s.running.find? (·.id = id) = none := by
        refine List.find?_eq_none.2 fun job hjob hid => hfresh ?_
        rw [← of_decide_eq_true hid]
        exact List.mem_map_of_mem hjob
      rw [hrunning, List.find?_append, hnone]
      simp
    · -- Whoever waits in `s` waits for a key that is in flight.
      rw [waitingFor, hwaiting, List.filter_eq_nil_iff.2 fun f hf he => ?_]
      · rfl
      · exact hfree (of_decide_eq_true he ▸ (ha f hf).2)
  have hattended : (s.perform (.fetch id key.params compute true)).2.Attended := by
    intro f hf
    rw [hwaiting] at hf
    rw [hgate]
    exact ⟨(ha f hf).1, List.mem_append_left _ (ha f hf).2⟩
  obtain ⟨hnext, hattended', hfilter⟩ := hbegun.of_perform settled fun _ => hattended
  refine ⟨hnext, hattended', ?_⟩
  rw [hfilter, hcalls]
  simp

end Session

end FizzService
