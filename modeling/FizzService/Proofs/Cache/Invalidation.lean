/-
What an invalidation is good for. Each write has a date, the step in which its
computation was begun, or its own step where a `set` makes it; a session that
keeps these dates is `Dated`. What is served after an invalidation was written
after it. It was begun after it too, unless an owner had the key in flight at
the time (`served_after_invalidation`): an owner files its result whatever has
become of its key meanwhile (`invalidation_outlived`).

Dates are kept for what is open, and an invalidation opens nothing that will be
filed. So an open owner's computation that is as old as the invalidation was
open then (`Dated.put_mem_history`).
-/
import FizzService.Proofs.Cache.Fields
import FizzService.Proofs.Cache.Ownership
import FizzService.Proofs.Cache.Provenance

namespace FizzService

theorem OpenComputation.exists_leftBy (job : OpenComputation) (id : CallId) :
    ∃ mark, job.leftBy id = { job with abandoned := mark } := by
  unfold leftBy
  split
  · exact ⟨true, rfl⟩
  · exact ⟨job.abandoned, rfl⟩

namespace Session

variable (s : Session)

/-- The computations that an action leaves open, beside those that are. -/
def begins : Action → List OpenComputation
  | .fetch id params compute hold => s.fetchOpens id (.ofParams params) compute hold
  | .refresh id params compute hold =>
    if hold && !s.cache.gate.isInFlight (CacheKey.ofParams params).text then
      [⟨id, .ofParams params, compute, .refresh, false⟩] else []
  | _ => []

/-- The computations that a step leaves open, beside those that are. -/
def opens (t : Step) : List OpenComputation :=
  s.begins t.action ++
    if t.settled then (s.perform t.action).2.ready.flatMap (s.perform t.action).2.opened else []

end Session

/-- A session that numbers its steps, and notes of each open computation in
which step it was begun. -/
structure Dated where
  session : Session
  /-- The number of the next step. -/
  step : Nat
  opened : List (OpenComputation × Nat)
  aligned : opened.map (·.1) = session.running

namespace Dated

@[simp] theorem map_fst_dated {α : Type} (l : List α) (n : Nat) : (l.map (·, n)).map (·.1) = l := by
  rw [List.map_map]
  exact List.map_id l

def start (s : Session) : Dated := ⟨s, 0, s.running.map (·, 0), map_fst_dated ..⟩

variable (d : Dated)

/-- The open computations that outlast an action. -/
def kept : Action → List (OpenComputation × Nat)
  | .finish id => d.opened.eraseP (·.1.id = id)
  | .cancel id => if d.session.waiting.any (·.id = id) then d.opened else
    d.opened.map fun o => (o.1.leftBy id, o.2)
  | _ => d.opened

theorem running_perform (a : Action) :
    (d.session.perform a).2.running = (d.kept a).map (·.1) ++ d.session.begins a := by
  rw [Session.running_perform]
  cases a with
  | finish id =>
    rw [← d.aligned]
    exact List.eraseP_map.trans (List.append_nil _).symm
  | cancel id =>
    simp only [kept, Session.begins, List.append_nil]
    split
    · exact d.aligned.symm
    · rw [← d.aligned, List.map_map, List.map_map]
      rfl
  | fetch | refresh => rw [← d.aligned]; rfl
  | _ => exact d.aligned.symm.trans (List.append_nil _).symm

theorem running_next (t : Step) :
    (d.session.next t).running = (d.kept t.action).map (·.1) ++ d.session.opens t := by
  rw [Session.next_eq, Session.opens, ← List.append_assoc, ← running_perform]
  split
  · exact Session.running_settle _
  · exact (List.append_nil _).symm

def next (t : Step) : Dated where
  session := d.session.next t
  step := d.step + 1
  opened := d.kept t.action ++ (d.session.opens t).map (·, d.step)
  aligned := by rw [running_next, List.map_append, map_fst_dated]

def after (run : List Step) : Dated := run.foldl next d

/-- The step in which the work began whose result an action writes. -/
def begun : Action → Nat
  | .finish id => (d.opened.find? (·.1.id = id)).elim d.step (·.2)
  | _ => d.step

/-- The look-ups of the fetches that go on in the poll of a step. -/
def polls (t : Step) : List (Access × Nat) :=
  if t.settled then (d.session.perform t.action).2.ready.map fun f => (.find f.key, d.step) else []

/-- The accesses to the stores that a step makes, each with its date. -/
def accesses (t : Step) : List (Access × Nat) :=
  (d.session.accesses t.action).map (·, d.begun t.action) ++ d.polls t

/-- The accesses to the stores that a run makes, each with its date. -/
def history (d : Dated) : List Step → List (Access × Nat)
  | [] => []
  | t :: run => d.accesses t ++ (d.next t).history run

/-! ## Dates change nothing -/

theorem session_after (run : List Step) : (d.after run).session = d.session.after run := by
  induction run generalizing d with
  | nil => rfl
  | cons t run ih => exact ih (d.next t)

theorem step_after (run : List Step) : (d.after run).step = d.step + run.length := by
  induction run generalizing d with
  | nil => rfl
  | cons t run ih => exact (ih (d.next t)).trans (Nat.add_right_comm ..)

theorem history_append (run run' : List Step) :
    d.history (run ++ run') = d.history run ++ (d.after run).history run' := by
  induction run generalizing d with
  | nil => rfl
  | cons t run ih =>
    simp only [List.cons_append, history, ih, List.append_assoc]
    rfl

theorem accesses_fst (t : Step) : (d.accesses t).map (·.1) = d.session.stepAccesses t := by
  rw [accesses, Session.stepAccesses, List.map_append, map_fst_dated, polls]
  split
  · rw [List.map_map]
    rfl
  · rfl

theorem history_fst (run : List Step) : (d.history run).map (·.1) = d.session.history run := by
  induction run generalizing d with
  | nil => rfl
  | cons t run ih =>
    rw [history, List.map_append, accesses_fst, ih]
    rfl

/-! ## Who may write -/

/-- An owner's computation that was begun in the step `n` is open, and will file
the body. -/
def Owns (key : CacheKey) (body : ByteArray) (n : Nat) : Prop :=
  ∃ job, (job, n) ∈ d.opened ∧ job.purpose.role = .owner ∧ job.key = key ∧ job.compute key.params = .body body

variable {d} {D : Dated} {key : CacheKey} {body : ByteArray} {n : Nat} {t : Step}

theorem put_not_mem_polls : (.put key body, n) ∉ d.polls t := by
  intro hpoll
  unfold polls at hpoll
  split at hpoll
  · obtain ⟨f, -, hf⟩ := List.mem_map.1 hpoll
    cases hf
  · cases hpoll

/-- What is written is the work of the step itself, or of an owner that was
open before it. -/
theorem put_mem_accesses (h : (.put key body, n) ∈ d.accesses t) : n = d.step ∨ d.Owns key body n := by
  obtain ⟨access, hput, he⟩ := List.mem_map.1 ((List.mem_append.1 h).resolve_right put_not_mem_polls)
  cases he
  cases ha : t.action with
  | finish id =>
    rw [ha] at hput
    simp only [Session.accesses, ← d.aligned, List.find?_map, Function.comp_def] at hput
    rw [begun]
    cases hfound : d.opened.find? (·.1.id = id) with
    | none =>
      rw [hfound] at hput
      cases hput
    | some o =>
      rw [hfound] at hput
      obtain ⟨howner, hkey, hended⟩ := Session.mem_writes.1 hput
      exact .inr ⟨o.1, List.mem_of_find?_eq_some hfound, howner, hkey, hkey ▸ hended⟩
  | _ => exact .inl rfl

/-- An owner that is open after a step was open before it, or the step began it. -/
theorem Owns.of_next (h : (d.next t).Owns key body n) :
    d.Owns key body n ∨ n = d.step ∧ ∃ job ∈ d.session.opens t, job.purpose.role = .owner := by
  obtain ⟨job, hjob, howner, hkey, hbody⟩ := h
  rcases List.mem_append.1 hjob with hkept | hbegun
  · left
    cases ha : t.action with
    | finish id =>
      rw [ha] at hkept
      exact ⟨job, List.mem_of_mem_eraseP hkept, howner, hkey, hbody⟩
    | cancel id =>
      rw [ha] at hkept
      simp only [kept] at hkept
      split at hkept
      · exact ⟨job, hkept, howner, hkey, hbody⟩
      · -- Only the mark of the caller has changed.
        obtain ⟨former, hformer, he⟩ := List.mem_map.1 hkept
        cases he
        obtain ⟨mark, hmark⟩ := former.1.exists_leftBy id
        rw [hmark] at howner hkey hbody
        exact ⟨former.1, hformer, howner, hkey, hbody⟩
    | _ =>
      rw [ha] at hkept
      exact ⟨job, hkept, howner, hkey, hbody⟩
  · obtain ⟨job', hjob', he⟩ := List.mem_map.1 hbegun
    cases he
    exact .inr ⟨rfl, job, hjob', howner⟩

/-- An invalidation begins nothing that will be filed. -/
theorem Owns.of_invalidate {params : Params} {settled : Bool}
    (h : (d.next ⟨.invalidate params, settled⟩).Owns key body n) : d.Owns key body n := by
  refine h.of_next.resolve_right fun ⟨_, job, hjob, howner⟩ => ?_
  rcases List.mem_append.1 hjob with hbegun | hpoll
  · cases hbegun
  · split at hpoll
    · obtain ⟨f, -, hopened⟩ := List.mem_flatMap.1 hpoll
      rw [Session.purpose_of_opened hopened] at howner
      cases howner
    · cases hpoll

/-- What is written after a given step was begun after it, or by an owner that
was open then. -/
theorem put_mem_history {m : Nat} (hlater : m < d.step)
    (h : ∀ {key body n}, d.Owns key body n → m < n ∨ D.Owns key body n) {run : List Step}
    (hput : (.put key body, n) ∈ d.history run) : m < n ∨ D.Owns key body n := by
  induction run generalizing d with
  | nil => cases hput
  | cons t run ih =>
    rcases List.mem_append.1 hput with hnow | hrest
    · rcases put_mem_accesses hnow with rfl | howns
      · exact .inl hlater
      · exact h howns
    · refine ih (Nat.lt_succ_of_lt hlater) (fun howns => ?_) hrest
      rcases howns.of_next with hformer | ⟨rfl, -⟩
      · exact h hformer
      · exact .inl hlater

end Dated

/-- The last access of a dated history that settled what is on record for a key
wrote this body, and bears this date. -/
def LastWriteBegun (history : List (Access × Nat)) (key : CacheKey) (body : ByteArray) (n : Nat) : Prop :=
  ∃ before later, history = before ++ (.put key body, n) :: later ∧ ∀ a ∈ later, ¬ a.1.Renews key

variable {key : CacheKey} {body : ByteArray}

theorem LastWrite.dated {history : List (Access × Nat)} (h : LastWrite (history.map (·.1)) key body) :
    ∃ n, LastWriteBegun history key body n := by
  obtain ⟨before, later, hsplit, hlater⟩ := h
  obtain ⟨before', rest, rfl, rfl, hrest⟩ := List.map_eq_append_iff.1 hsplit
  obtain ⟨⟨access, n⟩, later', rfl, rfl, rfl⟩ := List.map_eq_cons_iff.1 hrest
  exact ⟨n, before', later', rfl, fun a ha => hlater a.1 (List.mem_map_of_mem ha)⟩

theorem LastWrite.append {history later : List Access} (h : LastWrite history key body)
    (hlater : ∀ a ∈ later, ¬ a.Renews key) : LastWrite (history ++ later) key body := by
  induction later generalizing history with
  | nil =>
    rw [List.append_nil]
    exact h
  | cons a later ih =>
    rw [List.append_cons]
    exact ih (h.concat (hlater a List.mem_cons_self)) fun a' ha' => hlater a' (List.mem_cons_of_mem a ha')

/-- The last write of a key comes after every removal of it. -/
theorem LastWriteBegun.mem_of_remove {earlier later : List (Access × Nat)} {m n : Nat}
    (h : LastWriteBegun (earlier ++ (.remove key, m) :: later) key body n) : (.put key body, n) ∈ later := by
  obtain ⟨before, rest, hsplit, hrest⟩ := h
  rcases List.append_eq_append_iff.1 hsplit with ⟨between, -, hcons⟩ | ⟨between, -, hcons⟩
  · -- The removal comes first.
    cases between with
    | nil => cases hcons
    | cons a between =>
      rw [(List.cons.inj hcons).2]
      simp
  · -- The write comes first, and the removal renews its key.
    cases between with
    | nil => cases hcons
    | cons a between =>
      rw [(List.cons.inj hcons).2] at hrest
      exact absurd rfl (hrest (.remove key, m) (by simp))

namespace Session

/-- In the step `t`, a fetch or a `get` with the given parameters is answered
from the stores. -/
inductive Served (s : Session) (t : Step) (params : Params) (body : ByteArray) : Prop
  | fetch {id : CallId} {compute : Compute} {hold : Bool} (action : t.action = .fetch id params compute hold)
    (reply : (s.step t.action t.settled).1 = .call (.done (.body body))) (uncomputed : s.calls t.action = [])
  | get (action : t.action = .get params) (reply : (s.step t.action t.settled).1 = .body (some body))
  /-- It waited, and goes on in the poll. -/
  | resumed {f : WaitingFetch} {id : CallId} (named : f.key = .ofParams params)
    (event : (f, (id, .done (.body body))) ∈ (s.perform t.action).2.ready.zip (s.step t.action t.settled).2.1)
    (uncomputed : (s.perform t.action).2.called f = [])

variable {s : Session} {t : Step} {params : Params}

/-- A fetch that ends at once and calls no compute function has found its body. -/
theorem lookup_of_calls {id : CallId} {compute : Compute} {hold : Bool}
    (h : (s.fetch id (.ofParams params) compute hold).1 = .done (.body body))
    (hcalls : s.calls (.fetch id params compute hold) = []) :
    (s.cache.lookup s.now (.ofParams params)).1 = .served body := by
  simp only [calls, ResponseCache.enter_eq] at hcalls
  cases hl : (s.cache.lookup s.now (.ofParams params)).1 with
  | served body' =>
    rw [fetch_served _ _ _ _ _ hl] at h
    cases h
    rfl
  | bypass => simp [hl] at hcalls
  | missing =>
    cases hk : s.cache.gate.isInFlight (CacheKey.ofParams params).text with
    | false => simp [hl, hk] at hcalls
    | true =>
      rw [fetch_waits _ _ _ _ _ hl hk] at h
      cases h

/-- A fetch that goes on and calls no compute function has found its body. -/
theorem lookup_of_called {f : WaitingFetch} (h : (s.resume f).1 = .done (.body body))
    (hcalled : s.called f = []) : (s.cache.lookup s.now f.key).1 = .served body := by
  rw [resume_fst] at h
  unfold called at hcalled
  split at hcalled
  · rename_i found
    rw [found] at h ⊢
    cases h
    rfl
  · cases hcalled

theorem not_renews_polls {key : CacheKey} : ∀ a ∈ s.ready.map (Access.find ·.key), ¬ a.Renews key := by
  intro a ha
  obtain ⟨f, -, rfl⟩ := List.mem_map.1 ha
  exact fun hf => hf

/-- What is served is the last write, also once the step is over. -/
theorem Served.lastWrite {history : List Access} (hs : s.Served t params body)
    (h : ∀ key, Traced s.cache.config.maxAcceptedBytes.toNat history s.cache.stores key) :
    LastWrite (history ++ s.stepAccesses t) (.ofParams params) body := by
  -- The polls that follow the action renew nothing.
  have polled : LastWrite (history ++ s.accesses t.action) (.ofParams params) body →
      LastWrite (history ++ s.stepAccesses t) (.ofParams params) body := by
    intro hlast
    rw [stepAccesses, ← List.append_assoc]
    refine hlast.append ?_
    split
    · exact not_renews_polls
    · exact fun a ha => by cases ha
  refine polled ?_
  cases hs with
  | fetch action reply uncomputed =>
    rw [step_fst, action] at reply
    rw [action] at uncomputed
    have hserved := lookup_of_calls (Reply.call.inj reply) uncomputed
    rw [action]
    simp only [accesses, ResponseCache.enter_eq, hserved]
    exact ((h _).of_holds (ResponseCache.holds_of_lookup _ _ _ hserved)).1.concat fun hf => hf
  | get action reply =>
    rw [step_fst, action] at reply
    rw [action]
    exact ((h _).of_holds (Stores.holds_of_get (Reply.body.inj reply))).1.concat fun hf => hf
  | resumed named event uncomputed =>
    rw [step_events] at event
    split at event
    · rw [settle_events] at event
      have hperformed := Traced.replay h (s.perform t.action).2.now (s.accesses t.action)
      rw [← (s.perform_performed t.action).stores] at hperformed
      have hevent := eq_of_mem_zip_map event
      have hserved := lookup_of_called (Prod.mk.inj hevent).2.symm uncomputed
      rw [← named]
      exact ((hperformed _).of_holds (ResponseCache.holds_of_lookup _ _ _ hserved)).1
    · rw [List.zip_nil_right] at event
      cases event

/-- What is served has a date. -/
theorem Served.lastWriteBegun {config : CacheConfig} {s₀ : Session} (h : Session.new config = .ok s₀)
    {run : List Step} (hs : (s₀.after run).Served t params body) :
    ∃ n, LastWriteBegun ((Dated.start s₀).history (run ++ [t])) (.ofParams params) body n := by
  obtain ⟨-, queue, hs₀⟩ := new_eq_ok h
  have hstart : ∀ key, Traced s₀.cache.config.maxAcceptedBytes.toNat [] s₀.cache.stores key := by
    intro key
    rw [hs₀]
    exact .of_absent ⟨rfl, rfl⟩
  have htraced := traced_after rfl hstart run
  rw [← config_after] at htraced
  refine LastWrite.dated ?_
  rw [Dated.history_append, List.map_append, Dated.history_fst, Dated.history_fst, Dated.session_after]
  change LastWrite (s₀.history run ++ ((s₀.after run).stepAccesses t ++ [])) _ _
  rw [List.append_nil]
  exact hs.lastWrite htraced

/-- Where a key is not in flight, no owner is open that will file a body under it. -/
theorem Owned.not_owns {d : Dated} {key : CacheKey} {n : Nat} (h : d.session.Owned)
    (hfree : d.session.cache.gate.isInFlight key.text = false) : ¬ d.Owns key body n := by
  rintro ⟨job, hjob, howner, rfl, -⟩
  have hrunning : job ∈ d.session.running := by
    rw [← d.aligned]
    exact List.mem_map_of_mem hjob
  have hinFlight : job.key.text ∈ d.session.cache.gate.inFlight := by
    rw [h.registry]
    exact List.mem_map_of_mem (List.mem_filter.2 ⟨hrunning, decide_eq_true howner⟩)
  rw [Gate.isInFlight_iff.2 hinFlight] at hfree
  cases hfree

/-- **What an invalidation ensures.** Whatever runs before and after it, a fetch
or a `get` of its key that is answered from the stores after it is given bytes
that were written after it. They were set, or their computation was begun, after
it, unless an owner had the key in flight and filed its result later; where the
key was not in flight, there is no exception. -/
theorem served_after_invalidation {config : CacheConfig} {s₀ : Session} (h : Session.new config = .ok s₀)
    (before : List Step) (params : Params) (settled : Bool) (after : List Step) (t : Step) (body : ByteArray)
    (hserved : (s₀.after (before ++ ⟨.invalidate params, settled⟩ :: after)).Served t params body) :
    ∃ n, LastWriteBegun ((Dated.start s₀).history (before ++ ⟨.invalidate params, settled⟩ :: after ++ [t]))
        (.ofParams params) body n ∧
      (before.length < n ∨ ((Dated.start s₀).after before).Owns (.ofParams params) body n) ∧
      ((s₀.after before).cache.gate.isInFlight (CacheKey.ofParams params).text = false →
        before.length < n) := by
  obtain ⟨n, hbegun⟩ := hserved.lastWriteBegun h
  refine ⟨n, hbegun, ?_⟩
  rw [List.append_assoc, Dated.history_append] at hbegun
  have hlength : ((Dated.start s₀).after before).step = before.length :=
    ((Dated.start s₀).step_after before).trans (Nat.zero_add _)
  have hsession : ((Dated.start s₀).after before).session = s₀.after before := Dated.session_after ..
  have howned : ((Dated.start s₀).after before).session.Owned := hsession ▸ (Owned.new h).after before
  rw [← hsession]
  generalize (Dated.start s₀).after before = d at hbegun hlength howned hsession ⊢
  have hdate : before.length < n ∨ d.Owns (.ofParams params) body n := by
    rcases List.mem_append.1 hbegun.mem_of_remove with hpoll | hrest
    · exact absurd hpoll Dated.put_not_mem_polls
    · refine Dated.put_mem_history ?_ (fun howns => .inr howns.of_invalidate) hrest
      exact hlength ▸ Nat.lt_succ_self _
  exact ⟨hdate, fun hfree => hdate.resolve_right (howned.not_owns hfree)⟩

/-- What is set after an invalidation is served then, not what was set before. -/
theorem served_after_invalidation_small :
    let before : List Step := [⟨.set default ⟨#[7]⟩, true⟩]
    let after : List Step := [⟨.set default ⟨#[8]⟩, true⟩]
    Session.new .small = .ok .small ∧
      (small.after (before ++ ⟨.invalidate default, true⟩ :: after)).Served ⟨.get default, true⟩ default ⟨#[8]⟩ ∧
      ∃ n, LastWriteBegun ((Dated.start small).history
        (before ++ ⟨.invalidate default, true⟩ :: after ++ [⟨.get default, true⟩])) (.ofParams default) ⟨#[8]⟩ n ∧
        1 < n := by
  intro before after
  have hserved : (small.after (before ++ ⟨.invalidate default, true⟩ :: after)).Served
      ⟨.get default, true⟩ default ⟨#[8]⟩ := .get rfl rfl
  obtain ⟨n, hbegun, -, hfree⟩ := served_after_invalidation new_small before default true after _ _ hserved
  exact ⟨new_small, hserved, n, hbegun, hfree rfl⟩

/-- An owner that had the key in flight files its result after the invalidation:
what is served then was begun in step 0, before the invalidation in step 1. -/
theorem invalidation_outlived :
    let before : List Step := [⟨.fetch "a" default (fun _ => .body ⟨#[7]⟩) true, true⟩]
    let after : List Step := [⟨.finish "a", true⟩]
    Session.new .small = .ok .small ∧
      (small.after (before ++ ⟨.invalidate default, true⟩ :: after)).Served ⟨.get default, true⟩ default ⟨#[7]⟩ ∧
      LastWriteBegun ((Dated.start small).history
        (before ++ ⟨.invalidate default, true⟩ :: after ++ [⟨.get default, true⟩])) (.ofParams default) ⟨#[7]⟩ 0 ∧
      0 < before.length := by
  intro before after
  refine ⟨new_small, .get rfl rfl, ?_, Nat.zero_lt_one⟩
  refine ⟨[(.find (.ofParams default), 0), (.remove (.ofParams default), 1)],
    [(.get (.ofParams default), 3)], rfl, fun a ha => ?_⟩
  rw [List.mem_singleton.1 ha]
  exact fun hf => hf

end Session

end FizzService
