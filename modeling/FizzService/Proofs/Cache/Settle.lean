/-
A poll of the waiting fetches, all at once. Those whose wait is over go on in
the order in which they began; each looks its key up, is served what is on
record or computes on its own. None of that changes the gate, the time or
what another look-up finds (`Stores.find_find`), so each of them ends as it
would have if it had gone on first: `settle_polled` gives the outcome of the
poll as a map over the fetches that go on.
-/
import FizzService.Cache.Session
import FizzService.Proofs.Cache.Response

namespace FizzService

namespace Session

/-- The waiting fetches that a poll lets go on. -/
def ready (s : Session) : List WaitingFetch :=
  s.waiting.filter fun f => (f.waiter.poll s.cache.gate).isNone

/-- The waiting fetches that a poll leaves waiting. -/
def kept (s : Session) : List WaitingFetch :=
  s.waiting.filterMap fun f => (f.waiter.poll s.cache.gate).map fun w => { f with waiter := w }

/-- What a fetch that goes on leaves open: its own computation, if nothing
can be served and it is held. -/
def opened (s : Session) (f : WaitingFetch) : List OpenComputation :=
  match (s.cache.lookup s.now f.key).1 with
  | .served _ => []
  | _ => if f.hold then [⟨f.id, f.key, f.compute, .alone, false⟩] else []

/-- The compute function that a fetch that goes on calls, with its key. -/
def called (s : Session) (f : WaitingFetch) : List (CacheKey × Compute) :=
  match (s.cache.lookup s.now f.key).1 with
  | .served _ => []
  | _ => [(f.key, f.compute)]

/-! ## One fetch goes on -/

variable (s : Session) (f : WaitingFetch)

theorem resume_fst : (s.resume f).1 =
    match (s.cache.lookup s.now f.key).1 with
    | .served body => .done (.body body)
    | _ => if f.hold then .computing .alone else .done (Purpose.alone.answer (f.compute f.key.params)) := by
  unfold resume
  rcases s.cache.lookup s.now f.key with ⟨found, cache⟩
  cases found with
  | served body => rfl
  | bypass | missing =>
    simp only [launch]
    cases f.hold <;> rfl

/-- The computation that a fetch runs on its own leaves no trace but the
count of it. -/
theorem resume_snd : (s.resume f).2.now = s.now ∧ (s.resume f).2.sweep = s.sweep ∧
    (s.resume f).2.waiting = s.waiting ∧ (s.resume f).2.running = s.running ++ s.opened f ∧
    (s.resume f).2.cache.gate = s.cache.gate ∧ (s.resume f).2.cache.config = s.cache.config ∧
    (s.resume f).2.cache.stores = (s.cache.stores.find s.now f.key.text).2 ∧
    (s.resume f).2.cache.counters.computations =
      s.cache.counters.computations + (s.called f).length := by
  have hg := s.cache.gate_lookup s.now f.key
  have hc := s.cache.config_lookup s.now f.key
  have hs := s.cache.stores_lookup s.now f.key
  have hn := s.cache.computations_lookup s.now f.key
  unfold resume opened called
  generalize s.cache.lookup s.now f.key = looked at hg hc hs hn ⊢
  obtain ⟨found, cache⟩ := looked
  cases found with
  | served body => exact ⟨rfl, rfl, rfl, (List.append_nil _).symm, hg, hc, hs, hn⟩
  | bypass | missing =>
    simp only [launch]
    cases f.hold with
    | true => exact ⟨rfl, rfl, rfl, rfl, hg, hc, hs, congrArg (· + 1) hn⟩
    | false =>
      refine ⟨rfl, rfl, rfl, (List.append_nil _).symm, ?_, ?_, ?_, ?_⟩
      · exact (ResponseCache.gate_finish ..).trans hg
      · exact (ResponseCache.config_finish ..).trans hc
      · exact (ResponseCache.stores_finish ..).trans hs
      · exact (ResponseCache.computations_finish ..).trans (congrArg (· + 1) hn)

/-! ## All fetches go on -/

/-- A session in which every fetch goes on as it would in `s`. -/
structure Alike (s t : Session) : Prop where
  now : t.now = s.now
  sweep : t.sweep = s.sweep
  gate : t.cache.gate = s.cache.gate
  config : t.cache.config = s.cache.config
  found : ∀ key, (t.cache.lookup t.now key).1 = (s.cache.lookup s.now key).1

variable {s f} {t : Session}

theorem Alike.refl (s : Session) : s.Alike s := ⟨rfl, rfl, rfl, rfl, fun _ => rfl⟩

theorem Alike.waiting (h : s.Alike t) (waiting : List WaitingFetch) :
    s.Alike { t with waiting := waiting } :=
  ⟨h.now, h.sweep, h.gate, h.config, h.found⟩

theorem Alike.resume (h : s.Alike t) (f : WaitingFetch) : s.Alike (t.resume f).2 := by
  obtain ⟨hnow, hsweep, -, -, hgate, hconfig, hstores, -⟩ := t.resume_snd f
  refine ⟨hnow.trans h.now, hsweep.trans h.sweep, hgate.trans h.gate, hconfig.trans h.config,
    fun key => ?_⟩
  rw [ResponseCache.lookup_fst, hnow, hstores, Stores.find_find, ← ResponseCache.lookup_fst]
  exact h.found key

theorem Alike.resume_fst (h : s.Alike t) (f : WaitingFetch) : (t.resume f).1 = (s.resume f).1 := by
  rw [Session.resume_fst, Session.resume_fst, h.found]

theorem Alike.opened (h : s.Alike t) (f : WaitingFetch) : t.opened f = s.opened f := by
  rw [Session.opened, Session.opened, h.found]

theorem Alike.called (h : s.Alike t) (f : WaitingFetch) : t.called f = s.called f := by
  rw [Session.called, Session.called, h.found]

/-- What a poll of the fetches `fs` makes of the session `t`, told in terms
of the session `s` that is polled. -/
structure Polled (s t : Session) (fs : List WaitingFetch) (r : List (CallId × Progress) × Session) :
    Prop where
  alike : s.Alike r.2
  events : r.1 = (fs.filter fun f => (f.waiter.poll s.cache.gate).isNone).map fun f =>
    (f.id, (s.resume f).1)
  waiting : r.2.waiting = t.waiting ++ fs.filterMap fun f =>
    (f.waiter.poll s.cache.gate).map fun w => { f with waiter := w }
  running : r.2.running = t.running ++
    (fs.filter fun f => (f.waiter.poll s.cache.gate).isNone).flatMap s.opened
  stores : r.2.cache.stores = t.cache.stores.replay s.cache.config s.now
    ((fs.filter fun f => (f.waiter.poll s.cache.gate).isNone).map (.find ·.key))
  computations : r.2.cache.counters.computations = t.cache.counters.computations +
    ((fs.filter fun f => (f.waiter.poll s.cache.gate).isNone).flatMap s.called).length

theorem pollAll_polled (fs : List WaitingFetch) (h : s.Alike t) : Polled s t fs (pollAll fs t) := by
  induction fs generalizing t with
  | nil =>
    exact ⟨h, rfl, (List.append_nil _).symm, (List.append_nil _).symm, rfl, rfl⟩
  | cons f fs ih =>
    rw [pollAll, h.gate]
    cases hp : f.waiter.poll s.cache.gate with
    | some w =>
      -- It goes on waiting, in its place among those that do.
      have ih := ih (h.waiting (t.waiting ++ [{ f with waiter := w }]))
      refine ⟨ih.alike, ?_, ?_, ?_, ?_, ?_⟩
      · simp only [List.filter_cons, hp, Option.isNone_some, Bool.false_eq_true, if_false]
        exact ih.events
      · simp only [List.filterMap_cons, hp, Option.map_some]
        rw [ih.waiting, List.append_assoc, List.singleton_append]
      · simp only [List.filter_cons, hp, Option.isNone_some, Bool.false_eq_true, if_false]
        exact ih.running
      · simp only [List.filter_cons, hp, Option.isNone_some, Bool.false_eq_true, if_false]
        exact ih.stores
      · simp only [List.filter_cons, hp, Option.isNone_some, Bool.false_eq_true, if_false]
        exact ih.computations
    | none =>
      have ih := ih (h.resume f)
      obtain ⟨-, -, hwaiting, hrunning, -, -, hstores, hcomputations⟩ := t.resume_snd f
      refine ⟨ih.alike, ?_, ?_, ?_, ?_, ?_⟩
      · simp only [List.filter_cons, hp, Option.isNone_none, if_true, List.map_cons]
        rw [← h.resume_fst, ih.events]
      · simp only [List.filterMap_cons, hp, Option.map_none]
        rw [ih.waiting, hwaiting]
      · simp only [List.filter_cons, hp, Option.isNone_none, if_true, List.flatMap_cons]
        rw [ih.running, hrunning, h.opened, List.append_assoc]
      · simp only [List.filter_cons, hp, Option.isNone_none, if_true, List.map_cons]
        rw [ih.stores, hstores, h.now]
        rfl
      · simp only [List.filter_cons, hp, Option.isNone_none, if_true, List.flatMap_cons,
          List.length_append]
        rw [ih.computations, hcomputations, h.called]
        omega

/-- **A poll of all waiting fetches**: those that go on end each for itself,
the others stay. -/
theorem settle_polled (s : Session) : Polled s { s with waiting := [] } s.waiting s.settle :=
  pollAll_polled s.waiting ((Alike.refl s).waiting [])

theorem settle_events (s : Session) : s.settle.1 = s.ready.map fun f => (f.id, (s.resume f).1) :=
  s.settle_polled.events

@[simp] theorem waiting_settle (s : Session) : s.settle.2.waiting = s.kept := s.settle_polled.waiting

@[simp] theorem running_settle (s : Session) :
    s.settle.2.running = s.running ++ s.ready.flatMap s.opened := s.settle_polled.running

@[simp] theorem now_settle (s : Session) : s.settle.2.now = s.now := s.settle_polled.alike.now

@[simp] theorem gate_settle (s : Session) : s.settle.2.cache.gate = s.cache.gate :=
  s.settle_polled.alike.gate

@[simp] theorem config_settle (s : Session) : s.settle.2.cache.config = s.cache.config :=
  s.settle_polled.alike.config

theorem stores_settle (s : Session) : s.settle.2.cache.stores =
    s.cache.stores.replay s.cache.config s.now (s.ready.map (.find ·.key)) :=
  s.settle_polled.stores

theorem computations_settle (s : Session) : s.settle.2.cache.counters.computations =
    s.cache.counters.computations + (s.ready.flatMap s.called).length :=
  s.settle_polled.computations

/-- A poll that lets nobody go on only notes who looked. -/
theorem settle_of_ready (h : s.ready = []) : s.settle = ([], { s with waiting := s.kept }) := by
  have hall : ∀ (fs : List WaitingFetch) (t : Session), t.cache.gate = s.cache.gate →
      (fs.filter fun f => (f.waiter.poll s.cache.gate).isNone) = [] →
      pollAll fs t = ([], { t with waiting := t.waiting ++ fs.filterMap fun f =>
        (f.waiter.poll s.cache.gate).map fun w => { f with waiter := w } }) := by
    intro fs
    induction fs with
    | nil => intro t _ _; simp [pollAll]
    | cons f fs ih =>
      intro t hgate hnone
      rw [pollAll, hgate]
      cases hp : f.waiter.poll s.cache.gate with
      | none => simp [hp] at hnone
      | some w =>
        simp only [List.filter_cons, hp, Option.isNone_some, Bool.false_eq_true, if_false] at hnone
        simp [ih { t with waiting := t.waiting ++ [{ f with waiter := w }] } hgate hnone, hp]
  exact hall s.waiting { s with waiting := [] } rfl h

/-- What a poll opens, it opens for fetches that compute on their own. -/
theorem purpose_of_opened {job : OpenComputation} (h : job ∈ s.opened f) :
    job = ⟨f.id, f.key, f.compute, .alone, false⟩ := by
  unfold opened at h
  split at h
  · cases h
  · split at h
    · exact List.mem_singleton.1 h
    · cases h

end Session

end FizzService
