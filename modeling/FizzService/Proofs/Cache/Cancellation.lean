/-
Cancellation is neutral. A caller who leaves an open computation changes one
thing, the mark of it; everything that an action or a poll does, it does
whatever the marks are (`Deserted.perform`, `Deserted.settle`). So two runs of
which only one has the cancellation go through the same states of the cache,
and differ in what is heard of that call alone (`Heard`). A fetch that waits
and is given up leaves the others in their places; as it is nowhere else on
record, nothing of it comes up again (`silent_of_absent`).

A step that gives a call up may poll, and so lets those go on who are due
anyway. It is held against a run that only polls there (`look`); where all
have just looked, such a poll does nothing (`Rested.settle`).
-/
import FizzService.Proofs.Cache.Computing
import FizzService.Proofs.Cache.Fields
import Mathlib.Data.List.Basic

namespace FizzService

/-- Open computations, some of those named `id` with or without their callers. -/
inductive Left (id : CallId) : List OpenComputation → List OpenComputation → Prop
  | nil : Left id [] []
  | same (job : OpenComputation) {jobs jobs' : List OpenComputation} (rest : Left id jobs jobs') :
    Left id (job :: jobs) (job :: jobs')
  | left (job : OpenComputation) (named : job.id = id) {jobs jobs' : List OpenComputation} (rest : Left id jobs jobs') :
    Left id (job :: jobs) ({ job with abandoned := true } :: jobs')

/-- What an action is answered where the call `id` has its caller, and where it
was given up: the end of its computation is told to nobody, and it cannot be
given up again. All else is answered alike. -/
inductive Heard (id : CallId) : Action → Reply → Reply → Prop
  | same (a : Action) (reply : Reply) : Heard id a reply reply
  | ended (answer : Answer) : Heard id (.finish id) (.ended (.answered answer)) (.ended .abandoned)
  | gone : Heard id (.cancel id) (.cancelled true) (.cancelled false)

/-- Whether an action begins a call of that name. -/
def Action.begins (id : CallId) : Action → Bool
  | .fetch id' _ _ _ | .refresh id' _ _ _ => id' = id
  | _ => false

@[simp] theorem OpenComputation.id_leftBy (id : CallId) (job : OpenComputation) : (job.leftBy id).id = job.id := by
  unfold leftBy
  split <;> rfl

theorem Waiter.poll_again {κ : Type} [DecidableEq κ] {w w' : Waiter κ} {g : Gate κ} (h : w.poll g = some w') :
    w'.poll g = some w' := by
  unfold poll at h
  split at h
  · rename_i hheard
    cases h
    exact if_pos hheard
  · split at h
    · cases h
    · cases h
      exact if_pos rfl

namespace Left

variable {id id' : CallId} {jobs jobs' : List OpenComputation}

theorem refl (jobs : List OpenComputation) : Left id jobs jobs := by
  induction jobs with
  | nil => exact .nil
  | cons job jobs ih => exact .same job ih

theorem append (h : Left id jobs jobs') (more : List OpenComputation) : Left id (jobs ++ more) (jobs' ++ more) := by
  induction h with
  | nil => exact refl more
  | same job _ ih => exact .same job ih
  | left job named _ ih => exact .left job named ih

/-- Who is found by name is found in both. -/
theorem find? (h : Left id jobs jobs') (id' : CallId) :
    jobs'.find? (·.id = id') = jobs.find? (·.id = id') ∨
      ∃ job, id' = id ∧ jobs.find? (·.id = id') = some job ∧
        jobs'.find? (·.id = id') = some { job with abandoned := true } := by
  induction h with
  | nil => exact .inl rfl
  | same job _ ih =>
    rw [List.find?_cons, List.find?_cons]
    split
    · exact .inl rfl
    · exact ih
  | left job named _ ih =>
    rw [List.find?_cons, List.find?_cons]
    by_cases hid : job.id = id'
    · exact .inr ⟨job, by rw [← hid, named], by simp [hid], by simp [hid]⟩
    · simpa [hid] using ih

theorem eraseP (h : Left id jobs jobs') (id' : CallId) :
    Left id (jobs.eraseP (·.id = id')) (jobs'.eraseP (·.id = id')) := by
  induction h with
  | nil => exact .nil
  | same job rest ih =>
    by_cases hid : job.id = id'
    · simpa [hid] using rest
    · simpa [hid] using Left.same job ih
  | left job named rest ih =>
    by_cases hid : job.id = id'
    · simpa [hid] using rest
    · simpa [hid] using Left.left job named ih

theorem leftBy (h : Left id jobs jobs') (id' : CallId) :
    Left id (jobs.map (.leftBy id')) (jobs'.map (.leftBy id')) := by
  induction h with
  | nil => exact .nil
  | same job _ ih => exact .same _ ih
  | left job named _ ih =>
    rw [List.map_cons, List.map_cons, OpenComputation.leftBy, OpenComputation.leftBy]
    split
    · exact .same _ ih
    · exact .left job named ih

/-- The callers of a name leave. -/
theorem of_leftBy (id : CallId) (jobs : List OpenComputation) : Left id jobs (jobs.map (.leftBy id)) := by
  induction jobs with
  | nil => exact .nil
  | cons job jobs ih =>
    rw [List.map_cons, OpenComputation.leftBy]
    split
    · rename_i named
      exact .left job named ih
    · exact .same job ih

/-- Who can still leave is there with its caller. -/
theorem any_of_any (h : Left id jobs jobs') (id' : CallId)
    (hany : (jobs'.any fun job => job.id = id' && !job.abandoned) = true) :
    (jobs.any fun job => job.id = id' && !job.abandoned) = true := by
  induction h with
  | nil => exact hany
  | same job _ ih =>
    rw [List.any_cons, Bool.or_eq_true] at hany ⊢
    exact hany.imp_right ih
  | left job _ _ ih =>
    rw [List.any_cons, Bool.not_true, Bool.and_false, Bool.false_or] at hany
    rw [List.any_cons, ih hany, Bool.or_true]

theorem any_other (h : Left id jobs jobs') {id' : CallId} (hid : id' ≠ id) :
    (jobs'.any fun job => job.id = id' && !job.abandoned) = jobs.any fun job => job.id = id' && !job.abandoned := by
  induction h with
  | nil => rfl
  | same job _ ih => rw [List.any_cons, List.any_cons, ih]
  | left job named _ ih =>
    have hother : decide (job.id = id') = false := decide_eq_false fun he => hid (he.symm.trans named)
    rw [List.any_cons, List.any_cons, ih, hother]
    rfl

end Left

namespace Session

/-- A session, and the same with callers gone of computations named `id`. -/
def Deserted (id : CallId) (s t : Session) : Prop := ∃ jobs, t = { s with running := jobs } ∧ Left id s.running jobs

/-- All who wait have looked since the last release, and wait on. -/
def Rested (s : Session) : Prop := ∀ f ∈ s.waiting, f.waiter.poll s.cache.gate = some f.waiter

/-- What a poll tells, and the session it leaves, if there is one. -/
def look (s : Session) (settled : Bool) : List (CallId × Progress) × Session := if settled then s.settle else ([], s)

variable {s t : Session} {id : CallId}

theorem step_eq_look (s : Session) (a : Action) (settled : Bool) :
    s.step a settled = ((s.perform a).1, (s.perform a).2.look settled) := by
  cases settled <;> rfl

theorem next_eq_look (s : Session) (a : Step) : s.next a = ((s.perform a.action).2.look a.settled).2 := by
  rw [next, step_eq_look]

/-! ## A poll of those who have looked -/

theorem Rested.settle (h : s.Rested) : s.settle = ([], s) := by
  have hready : s.ready = [] := List.filter_eq_nil_iff.2 fun f hf => by rw [h f hf]; simp
  have hkept : s.kept = s.waiting.filterMap some := List.filterMap_congr fun f hf => by rw [h f hf]; rfl
  rw [settle_of_ready hready, hkept, List.filterMap_some]

theorem rested_settle (s : Session) : s.settle.2.Rested := by
  intro f hf
  rw [waiting_settle] at hf
  rw [gate_settle]
  obtain ⟨f', -, w, hw, rfl⟩ := mem_kept hf
  exact Waiter.poll_again hw

theorem rested_next (s : Session) {a : Step} (ha : a.settled = true) : (s.next a).Rested := by
  rw [next_eq, if_pos ha]
  exact rested_settle _

theorem look_of_rested {settled : Bool} (h : settled = true → s.Rested) : s.look settled = ([], s) := by
  cases settled with
  | true => exact (h rfl).settle
  | false => rfl

/-! ## Other open computations

A call and a poll add to the computations that are open and do not look at them. -/

variable (jobs : List OpenComputation)

theorem launch_running (s : Session) (job : OpenComputation) (hold : Bool) :
    ({ s with running := jobs } : Session).launch job hold =
      ((s.launch job hold).1, { (s.launch job hold).2 with running := jobs ++ if hold then [job] else [] }) := by
  cases hold with
  | true => rfl
  | false =>
    rw [if_neg Bool.false_ne_true, List.append_nil]
    rfl

theorem fetch_running (s : Session) (id : CallId) (key : CacheKey) (compute : Compute) (hold : Bool) :
    ({ s with running := jobs } : Session).fetch id key compute hold =
      ((s.fetch id key compute hold).1,
        { (s.fetch id key compute hold).2 with running := jobs ++ s.fetchOpens id key compute hold }) := by
  unfold fetch fetchOpens
  simp only
  generalize s.cache.enter s.now key = entered
  obtain ⟨admission, cache⟩ := entered
  cases admission with
  | served | waits => simp only [List.append_nil]
  | alone | owner =>
    refine (launch_running jobs { s with cache := cache } _ hold).trans ?_
    cases hold <;> rfl

theorem refresh_running (s : Session) (id : CallId) (key : CacheKey) (compute : Compute) (hold : Bool) :
    ({ s with running := jobs } : Session).refresh id key compute hold =
      ((s.refresh id key compute hold).1, { (s.refresh id key compute hold).2 with
        running := jobs ++
          if hold && !s.cache.gate.isInFlight key.text then [⟨id, key, compute, .refresh, false⟩] else [] }) := by
  unfold refresh
  have hclaim := s.cache.claim?_eq key
  cases hk : s.cache.gate.isInFlight key.text with
  | true =>
    rw [hk, if_pos rfl] at hclaim
    simp [hclaim]
  | false =>
    rw [hk, if_neg Bool.false_ne_true] at hclaim
    simp only [hclaim, Bool.not_false, Bool.and_true]
    exact launch_running jobs
      { s with cache := { s.cache with gate := ⟨s.cache.gate.inFlight ++ [key.text], s.cache.gate.broadcasts⟩ } } _ hold

theorem resume_running (s : Session) (f : WaitingFetch) :
    ({ s with running := jobs } : Session).resume f =
      ((s.resume f).1, { (s.resume f).2 with running := jobs ++ s.opened f }) := by
  unfold resume opened
  simp only
  generalize s.cache.lookup s.now f.key = looked
  obtain ⟨found, cache⟩ := looked
  cases found with
  | served => simp only [List.append_nil]
  | bypass | missing => exact launch_running jobs { s with cache := cache } _ f.hold

theorem advance_running (s : Session) (time : Duration) :
    ({ s with running := jobs } : Session).advance time = { s.advance time with running := jobs } := by
  unfold advance sweepIfDue
  cases s.sweep with
  | none => rfl
  | some sweep =>
    simp only
    split <;> rfl

theorem pollAll_stays {f : WaitingFetch} {w : Waiter String} (h : f.waiter.poll s.cache.gate = some w)
    (fs : List WaitingFetch) :
    pollAll (f :: fs) s = pollAll fs { s with waiting := s.waiting ++ [{ f with waiter := w }] } := by
  rw [pollAll, h]

theorem pollAll_goes {f : WaitingFetch} (h : f.waiter.poll s.cache.gate = none) (fs : List WaitingFetch) :
    pollAll (f :: fs) s = ((f.id, (s.resume f).1) :: (pollAll fs (s.resume f).2).1, (pollAll fs (s.resume f).2).2) := by
  rw [pollAll, h]

/-- A poll adds the same open computations to whichever there are. -/
theorem pollAll_running (fs : List WaitingFetch) (s : Session) : ∃ added,
    (pollAll fs s).2.running = s.running ++ added ∧
      ∀ jobs, pollAll fs { s with running := jobs } =
        ((pollAll fs s).1, { (pollAll fs s).2 with running := jobs ++ added }) := by
  induction fs generalizing s with
  | nil => exact ⟨[], (List.append_nil _).symm, fun jobs => by rw [List.append_nil]; rfl⟩
  | cons f fs ih =>
    cases hpoll : f.waiter.poll s.cache.gate with
    | some w =>
      obtain ⟨added, hrunning, hall⟩ := ih { s with waiting := s.waiting ++ [{ f with waiter := w }] }
      rw [pollAll_stays hpoll]
      exact ⟨added, hrunning, fun jobs => (pollAll_stays (s := { s with running := jobs }) hpoll fs).trans (hall jobs)⟩
    | none =>
      obtain ⟨added, hrunning, hall⟩ := ih (s.resume f).2
      obtain ⟨-, -, -, hopened, -⟩ := s.resume_snd f
      rw [pollAll_goes hpoll]
      refine ⟨s.opened f ++ added, ?_, fun jobs => ?_⟩
      · rw [hrunning, hopened, List.append_assoc]
      · rw [pollAll_goes (s := { s with running := jobs }) hpoll, resume_running, hall, List.append_assoc]

/-! ## Callers who have left -/

/-- An action does the same whether callers have left or not. -/
theorem Deserted.perform (h : Deserted id s t) (a : Action) :
    Deserted id (s.perform a).2 (t.perform a).2 ∧ Heard id a (s.perform a).1 (t.perform a).1 := by
  obtain ⟨jobs, rfl, hleft⟩ := h
  cases a with
  | fetch id' params compute hold =>
    simp only [Session.perform, fetch_running]
    refine ⟨⟨_, rfl, ?_⟩, .same ..⟩
    rw [(s.fetch_keeps id' _ compute hold).2.2.2]
    exact hleft.append _
  | refresh id' params compute hold =>
    simp only [Session.perform, refresh_running]
    refine ⟨⟨_, rfl, ?_⟩, .same ..⟩
    rw [(s.refresh_keeps id' _ compute hold).2.2.2]
    exact hleft.append _
  | finish id' =>
    simp only [Session.perform, Session.finish, conclude]
    rcases hleft.find? id' with hfound | ⟨job, rfl, hs, ht⟩
    · rw [hfound]
      cases s.running.find? (·.id = id') with
      | none => exact ⟨⟨jobs, rfl, hleft⟩, .same ..⟩
      | some job => exact ⟨⟨_, rfl, hleft.eraseP id'⟩, .same ..⟩
    · -- It ends alike; the mark says who is told.
      rw [hs, ht]
      simp only [if_true]
      refine ⟨⟨_, rfl, hleft.eraseP id'⟩, ?_⟩
      cases job.abandoned with
      | true => exact .same ..
      | false => exact .ended _
  | cancel id' =>
    simp only [Session.perform, Session.cancel]
    split
    · exact ⟨⟨jobs, rfl, hleft⟩, .same ..⟩
    · refine ⟨⟨_, rfl, hleft.leftBy id'⟩, ?_⟩
      by_cases hid : id' = id
      · subst hid
        cases hgone : (jobs.any fun job => job.id = id' && !job.abandoned) with
        | true =>
          -- Another computation of that name has its caller still.
          rw [hleft.any_of_any id' hgone]
          exact .same ..
        | false =>
          cases s.running.any fun job => job.id = id' && !job.abandoned with
          | true => exact .gone
          | false => exact .same ..
      · rw [hleft.any_other hid]
        exact .same ..
  | advance time =>
    simp only [Session.perform, advance_running]
    refine ⟨⟨jobs, rfl, ?_⟩, .same ..⟩
    rw [(s.advance_keeps time).2.2.1]
    exact hleft
  | drain time =>
    simp only [Session.perform, drain, advance_running]
    split
    · exact ⟨⟨jobs, rfl, hleft⟩, .same ..⟩
    · refine ⟨⟨jobs, rfl, ?_⟩, .same ..⟩
      rw [(s.advance_keeps time).2.2.1]
      exact hleft
  | _ => exact ⟨⟨jobs, rfl, hleft⟩, .same ..⟩

/-- A poll lets the same fetches go on, and each comes as far. -/
theorem Deserted.settle (h : Deserted id s t) : Deserted id s.settle.2 t.settle.2 ∧ t.settle.1 = s.settle.1 := by
  obtain ⟨jobs, rfl, hleft⟩ := h
  obtain ⟨added, hrunning, hall⟩ := pollAll_running s.waiting { s with waiting := [] }
  have hsettle : ({ s with running := jobs } : Session).settle =
      (s.settle.1, { s.settle.2 with running := jobs ++ added }) := hall jobs
  rw [hsettle]
  refine ⟨⟨_, rfl, ?_⟩, rfl⟩
  show Left id (pollAll s.waiting { s with waiting := [] }).2.running _
  rw [hrunning]
  exact hleft.append added

theorem Deserted.look (h : Deserted id s t) (settled : Bool) :
    Deserted id (s.look settled).2 (t.look settled).2 ∧ (t.look settled).1 = (s.look settled).1 := by
  cases settled with
  | true => exact h.settle
  | false => exact ⟨h, rfl⟩

theorem Deserted.next (h : Deserted id s t) (a : Step) : Deserted id (s.next a) (t.next a) := by
  rw [next_eq_look, next_eq_look]
  exact ((h.perform a.action).1.look a.settled).1

theorem Deserted.after (h : Deserted id s t) (run : List Step) : Deserted id (s.after run) (t.after run) := by
  induction run generalizing s t with
  | nil => exact h
  | cons a run ih => exact ih (h.next a)

/-! ## The computation that is to end -/

theorem find?_leftBy (jobs : List OpenComputation) (id' : CallId) :
    (jobs.map (OpenComputation.leftBy id')).find? (·.id = id) = (jobs.find? (·.id = id)).map (.leftBy id') := by
  rw [List.find?_map]
  simp only [Function.comp_def, OpenComputation.id_leftBy]

variable {job : OpenComputation}

/-- Until it ends, and unless its caller leaves, it is found as it is. -/
theorem found_perform (found : s.running.find? (·.id = id) = some job) {a : Action} (hfinish : a ≠ .finish id)
    (hcancel : a = .cancel id → job.abandoned = true) :
    (s.perform a).2.running.find? (·.id = id) = some job := by
  rw [running_perform]
  cases a with
  | fetch | refresh =>
    simp only
    rw [List.find?_append, found]
    rfl
  | finish id' =>
    have hid : id' ≠ id := fun he => hfinish (he ▸ rfl)
    refine (find?_eraseP (fun job' hjob' => ?_) _).trans found
    rw [of_decide_eq_true hjob']
    exact decide_eq_false hid
  | cancel id' =>
    simp only
    split
    · exact found
    · rw [find?_leftBy, found, Option.map_some, OpenComputation.leftBy]
      split
      · rename_i hid
        have hjob : job.id = id := by simpa using List.find?_some found
        rw [← hcancel (by rw [← hid, hjob])]
      · rfl
  | _ => exact found

theorem found_look (found : s.running.find? (·.id = id) = some job) (settled : Bool) :
    (s.look settled).2.running.find? (·.id = id) = some job := by
  cases settled with
  | true =>
    show s.settle.2.running.find? (·.id = id) = some job
    rw [running_settle, List.find?_append, found]
    rfl
  | false => exact found

theorem found_after (found : s.running.find? (·.id = id) = some job) {run : List Step}
    (hfinish : ∀ a ∈ run, a.action ≠ .finish id) (hcancel : ∀ a ∈ run, a.action = .cancel id → job.abandoned = true) :
    (s.after run).running.find? (·.id = id) = some job := by
  induction run generalizing s with
  | nil => exact found
  | cons a run ih =>
    refine ih ?_ (fun b hb => hfinish b (.tail _ hb)) (fun b hb => hcancel b (.tail _ hb))
    rw [next_eq_look]
    exact found_look (found_perform found (hfinish a (.head _)) (hcancel a (.head _))) a.settled

/-! ## A fetch that waits leaves -/

/-- The session without the fetches of that name that wait. -/
def without (s : Session) (id : CallId) : Session := { s with waiting := s.waiting.filter (·.id ≠ id) }

theorem cancel_waiting (h : ∃ f ∈ s.waiting, f.id = id) : s.perform (.cancel id) = (.cancelled true, s.without id) := by
  obtain ⟨f, hf, hid⟩ := h
  have hany : s.waiting.any (·.id = id) = true := List.any_eq_true.2 ⟨f, hf, decide_eq_true hid⟩
  simp only [Session.perform, cancel, if_pos hany]
  rfl

theorem cancel_running (h : ∀ f ∈ s.waiting, f.id ≠ id) : s.perform (.cancel id) =
    (.cancelled (s.running.any fun job => job.id = id && !job.abandoned),
      { s with running := s.running.map (.leftBy id) }) := by
  have hnone : s.waiting.any (·.id = id) = false := List.any_eq_false.2 fun f hf => by simp [h f hf]
  simp only [Session.perform, cancel, hnone, Bool.false_eq_true, if_false]
  rfl

theorem Rested.without (h : s.Rested) (id : CallId) : (s.without id).Rested :=
  fun f hf => h f (List.mem_filter.1 hf).1

theorem absent_without (s : Session) (id : CallId) : ∀ f ∈ (s.without id).waiting, f.id ≠ id :=
  fun _ hf => of_decide_eq_true (List.mem_filter.1 hf).2

/-- The others hear of the same as if the fetch were still there. -/
theorem events_without (s : Session) (id : CallId) (settled : Bool) :
    ((s.without id).look settled).1 = (s.look settled).1.filter (·.1 ≠ id) := by
  cases settled with
  | false => rfl
  | true =>
    have hready : (s.without id).ready = s.ready.filter (·.id ≠ id) := by
      simp only [ready, Session.without, List.filter_filter, Bool.and_comm]
    show (s.without id).settle.1 = s.settle.1.filter (·.1 ≠ id)
    rw [settle_events, settle_events, hready, List.filter_map]
    refine List.map_congr_left fun f _ => ?_
    rw [resume_fst, resume_fst]
    rfl

/-- In a step nothing is told of that name, nobody of that name goes on to look
its key up and to compute, and no computation of that name opens. -/
structure Silent (id : CallId) (s : Session) (a : Step) : Prop where
  events : ∀ event ∈ (s.step a.action a.settled).2.1, event.1 ≠ id
  ready : ∀ f ∈ (s.perform a.action).2.ready, f.id ≠ id
  running : (s.next a).running.countP (·.id = id) ≤ s.running.countP (·.id = id)

variable {a : Action}

theorem id_of_fetchWaits {key : CacheKey} {compute : Compute} {hold : Bool} {f : WaitingFetch}
    (h : f ∈ s.fetchWaits id key compute hold) : f.id = id := by
  unfold fetchWaits at h
  split at h
  · rw [List.mem_singleton.1 h]
  · cases h

theorem id_of_fetchOpens {key : CacheKey} {compute : Compute} {hold : Bool}
    (h : job ∈ s.fetchOpens id key compute hold) : job.id = id := by
  unfold fetchOpens at h
  split at h
  · rw [List.mem_singleton.1 h]
  · rw [List.mem_singleton.1 h]
  · cases h

theorem absent_perform (h : ∀ f ∈ s.waiting, f.id ≠ id) (ha : a.begins id = false) :
    ∀ f ∈ (s.perform a).2.waiting, f.id ≠ id := by
  rw [waiting_perform]
  cases a with
  | fetch id' params compute hold =>
    intro f hf
    rcases List.mem_append.1 hf with hf | hf
    · exact h f hf
    · rw [id_of_fetchWaits hf]
      exact of_decide_eq_false ha
  | cancel id' => exact fun f hf => h f (List.mem_filter.1 hf).1
  | _ => exact h

theorem absent_look (h : ∀ f ∈ s.waiting, f.id ≠ id) (settled : Bool) :
    ∀ f ∈ (s.look settled).2.waiting, f.id ≠ id := by
  cases settled with
  | true =>
    show ∀ f ∈ s.settle.2.waiting, f.id ≠ id
    rw [waiting_settle]
    intro f hf
    obtain ⟨f', hf', w, -, rfl⟩ := mem_kept hf
    exact h f' hf'
  | false => exact h

theorem absent_after (h : ∀ f ∈ s.waiting, f.id ≠ id) {run : List Step} (hrun : ∀ a ∈ run, a.action.begins id = false) :
    ∀ f ∈ (s.after run).waiting, f.id ≠ id := by
  induction run generalizing s with
  | nil => exact h
  | cons a run ih =>
    refine ih ?_ fun b hb => hrun b (.tail _ hb)
    rw [next_eq_look]
    exact absent_look (absent_perform h (hrun a (.head _))) a.settled

theorem countP_perform (s : Session) (ha : a.begins id = false) :
    (s.perform a).2.running.countP (·.id = id) ≤ s.running.countP (·.id = id) := by
  rw [running_perform]
  cases a with
  | fetch id' params compute hold =>
    have hopens : (s.fetchOpens id' (.ofParams params) compute hold).countP (·.id = id) = 0 := by
      refine List.countP_eq_zero.2 fun job hjob => ?_
      rw [id_of_fetchOpens hjob]
      exact Bool.eq_false_iff.1 ha
    simp only [List.countP_append, hopens, Nat.add_zero, Nat.le_refl]
  | refresh id' params compute hold =>
    simp only
    split
    · rw [List.countP_append, List.countP_singleton]
      simp only [Action.begins] at ha
      simp [ha]
    · exact Nat.le_of_eq (by rw [List.append_nil])
  | finish id' => exact List.eraseP_sublist.countP_le
  | cancel id' =>
    simp only
    split
    · exact Nat.le_refl _
    · rw [List.countP_map]
      simp only [Function.comp_def, OpenComputation.id_leftBy, Nat.le_refl]
  | _ => exact Nat.le_refl _

theorem silent_of_absent (h : ∀ f ∈ s.waiting, f.id ≠ id) {a : Step} (ha : a.action.begins id = false) :
    Silent id s a := by
  have hready : ∀ f ∈ (s.perform a.action).2.ready, f.id ≠ id :=
    fun f hf => absent_perform h ha f (List.mem_filter.1 hf).1
  refine ⟨?_, hready, ?_⟩
  · rw [step_events]
    intro event hevent
    split at hevent
    · rw [settle_events] at hevent
      obtain ⟨f, hf, rfl⟩ := List.mem_map.1 hevent
      exact hready f hf
    · cases hevent
  · have hperform := s.countP_perform ha
    rw [next_eq]
    split
    · have hopened : ((s.perform a.action).2.ready.flatMap (s.perform a.action).2.opened).countP (·.id = id) = 0 := by
        refine List.countP_eq_zero.2 fun job hjob => ?_
        obtain ⟨f, hf, hopened⟩ := List.mem_flatMap.1 hjob
        rw [purpose_of_opened hopened]
        simp [hready f hf]
      rw [running_settle, List.countP_append, hopened]
      exact hperform
    · exact hperform

/-! ## Neutrality -/

/-- The call has its caller, and its computation is open. -/
structure Computes (s : Session) (id : CallId) : Prop where
  opened : ∃ job ∈ s.running, job.id = id ∧ job.abandoned = false
  absent : ∀ f ∈ s.waiting, f.id ≠ id

/-- Two sessions, `t` that the caller of `id` has left, `s` where it stays.
From there all runs come to the same, and the same is heard of all other calls;
but when the computation ends, its answer is for nobody. -/
structure Unmissed (id : CallId) (s t : Session) : Prop where
  cache (run : List Step) : (t.after run).cache = (s.after run).cache
  calls (run : List Step) : Deserted id (s.after run) (t.after run)
  events (run : List Step) (a : Step) :
    ((t.after run).step a.action a.settled).2.1 = ((s.after run).step a.action a.settled).2.1
  replies (run : List Step) (a : Step) :
    Heard id a.action ((s.after run).perform a.action).1 ((t.after run).perform a.action).1
  abandoned (job : OpenComputation) (found : s.running.find? (·.id = id) = some job) (run : List Step)
    (opened : ∀ a ∈ run, a.action ≠ .finish id) : ((t.after run).perform (.finish id)).1 = .ended .abandoned
  answered (job : OpenComputation) (found : s.running.find? (·.id = id) = some job) (attended : job.abandoned = false)
    (run : List Step) (opened : ∀ a ∈ run, a.action ≠ .finish id) (stays : ∀ a ∈ run, a.action ≠ .cancel id) :
    ((s.after run).perform (.finish id)).1 = .ended (.answered (job.purpose.answer (job.compute job.key.params)))

theorem Deserted.unmissed (h : Deserted id s t)
    (hgone : ∀ job, s.running.find? (·.id = id) = some job →
      t.running.find? (·.id = id) = some { job with abandoned := true }) : Unmissed id s t where
  cache run := by
    obtain ⟨jobs, ht, -⟩ := h.after run
    rw [ht]
  calls run := h.after run
  events run a := by
    rw [step_eq_look, step_eq_look]
    exact (((h.after run).perform a.action).1.look a.settled).2
  replies run a := ((h.after run).perform a.action).2
  abandoned job found run opened := by
    have hfound := found_after (hgone job found) opened fun _ _ _ => rfl
    simp only [Session.perform, finish_found _ id hfound]
    rfl
  answered job found attended run opened stays := by
    have hfound := found_after found opened fun a ha hcancel => absurd hcancel (stays a ha)
    simp only [Session.perform, finish_found _ id hfound, attended]
    rfl

theorem Computes.unmissed (h : s.Computes id) (settled : Bool) :
    (s.step (.cancel id) settled).1 = .cancelled true ∧ (s.step (.cancel id) settled).2.1 = (s.look settled).1 ∧
      Unmissed id (s.look settled).2 (s.next ⟨.cancel id, settled⟩) := by
  obtain ⟨⟨job, hjob, hid, hattended⟩, habsent⟩ := h
  have hknown : (s.running.any fun job => job.id = id && !job.abandoned) = true :=
    List.any_eq_true.2 ⟨job, hjob, by simp [hid, hattended]⟩
  have hleft : Deserted id s { s with running := s.running.map (.leftBy id) } := ⟨_, rfl, .of_leftBy id _⟩
  obtain ⟨hdeserted, hevents⟩ := hleft.look settled
  obtain ⟨first, hfirst⟩ : ∃ first, s.running.find? (·.id = id) = some first :=
    Option.isSome_iff_exists.1 (List.find?_isSome.2 ⟨job, hjob, decide_eq_true hid⟩)
  have hnamed : first.id = id := by simpa using List.find?_some hfirst
  rw [next_eq_look, step_eq_look, cancel_running habsent, hknown]
  refine ⟨rfl, hevents, hdeserted.unmissed fun found hfound => ?_⟩
  rw [found_look hfirst settled] at hfound
  cases hfound
  refine found_look ?_ settled
  show (s.running.map (OpenComputation.leftBy id)).find? (·.id = id) = _
  rw [find?_leftBy, hfirst, Option.map_some, OpenComputation.leftBy, if_pos hnamed]

/-- **Cancellation is neutral.** Where a caller leaves whose computation is
open, every run from there does to the cache and to all other calls what it
does where the caller stays, and only the end of the computation is told to
nobody. A fetch that waits and is given up is taken from those that wait, and
that is all; no run that does not begin a call of its name anew hears of it
again. A step with a poll is held against a poll, which changes nothing where
all have just looked. -/
theorem cancellation_neutral (s : Session) (id : CallId) (settled : Bool) :
    (s.Computes id →
      (s.step (.cancel id) settled).1 = .cancelled true ∧ (s.step (.cancel id) settled).2.1 = (s.look settled).1 ∧
      Unmissed id (s.look settled).2 (s.next ⟨.cancel id, settled⟩)) ∧
    ((∃ f ∈ s.waiting, f.id = id) →
      s.step (.cancel id) settled = (.cancelled true, (s.without id).look settled) ∧
      ((s.without id).look settled).1 = (s.look settled).1.filter (·.1 ≠ id) ∧
      ((s.without id).look settled).2.cache.gate = s.cache.gate ∧
      ((settled = true → s.Rested) → s.next ⟨.cancel id, settled⟩ = s.without id) ∧
      ∀ run : List Step, (∀ a ∈ run, a.action.begins id = false) → ∀ a : Step, a.action.begins id = false →
        Silent id ((s.next ⟨.cancel id, settled⟩).after run) a) ∧
    (∀ a : Step, a.settled = true → (s.next a).Rested) ∧
    ((settled = true → s.Rested) → s.look settled = ([], s)) := by
  refine ⟨fun h => h.unmissed settled, fun h => ?_, fun a ha => rested_next s ha, look_of_rested⟩
  have hcancel := cancel_waiting h
  have hstep : s.step (.cancel id) settled = (.cancelled true, (s.without id).look settled) := by
    rw [step_eq_look, hcancel]
  have hnext : s.next ⟨.cancel id, settled⟩ = ((s.without id).look settled).2 := by rw [next, hstep]
  have habsent : ∀ f ∈ (s.next ⟨.cancel id, settled⟩).waiting, f.id ≠ id := by
    rw [hnext]
    exact absent_look (absent_without s id) settled
  refine ⟨hstep, s.events_without id settled, ?_, fun hrested => ?_, fun run hrun a ha => ?_⟩
  · cases settled with
    | true => exact gate_settle _
    | false => rfl
  · rw [hnext, look_of_rested fun hs => (hrested hs).without id]
  · exact silent_of_absent (absent_after habsent hrun) ha

/-- A caller leaves its computation, and a fetch gives up waiting for it. -/
theorem cancellation_neutral_small :
    let s := small.after [⟨.fetch "a" default (fun _ => .crash) true, true⟩,
      ⟨.fetch "b" default (fun _ => .crash) true, true⟩]
    s.Rested ∧ s.Computes "a" ∧ Unmissed "a" s (s.next ⟨.cancel "a", true⟩) ∧
      (∃ f ∈ s.waiting, f.id = "b") ∧ s.next ⟨.cancel "b", true⟩ = s.without "b" ∧
      Silent "b" (s.next ⟨.cancel "b", true⟩) ⟨.finish "a", true⟩ := by
  intro s
  have hrested : s.Rested :=
    (cancellation_neutral (small.after [⟨.fetch "a" default (fun _ => .crash) true, true⟩]) "b" true).2.2.1
      ⟨.fetch "b" default (fun _ => .crash) true, true⟩ rfl
  have hcomputes : s.Computes "a" := ⟨⟨_, .head _, rfl, rfl⟩, fun f hf => by
    cases List.mem_singleton.1 hf
    decide⟩
  have hwaits : ∃ f ∈ s.waiting, f.id = "b" := ⟨_, .head _, rfl⟩
  obtain ⟨-, -, hunmissed⟩ := (cancellation_neutral s "a" true).1 hcomputes
  rw [(cancellation_neutral s "a" true).2.2.2 fun _ => hrested] at hunmissed
  obtain ⟨-, -, -, hwithout, hsilent⟩ := (cancellation_neutral s "b" true).2.1 hwaits
  exact ⟨hrested, hcomputes, hunmissed, hwaits, hwithout fun _ => hrested,
    hsilent [] (fun a ha => by cases ha) ⟨.finish "a", true⟩ rfl⟩

end Session

end FizzService
