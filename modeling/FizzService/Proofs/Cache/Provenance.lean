/-
Where a served body comes from. What the stores hold for a key is the last
body that was written under it, and the key has not been invalidated since
(`Traced`). Every access keeps that: a `put` and an invalidation settle anew
what is on record for their own key, and no other access adds anything.

So a fetch that ends with a body either computed it itself or was served the
last body written for its parameters (`served_from_last_write`); what was
written for other parameters has another key, because a key spells its
parameters out.
-/
import FizzService.Proofs.Cache.Run

namespace FizzService

/-- The last access of a history that settled what is on record for a key
wrote this body. -/
def LastWrite (history : List Access) (key : CacheKey) (body : ByteArray) : Prop :=
  ∃ before later, history = before ++ .put key body :: later ∧ ∀ a ∈ later, ¬ a.Renews key

/-- What the stores hold for a key comes from the last write of it in a
history. -/
structure Traced (accepted : Nat) (history : List Access) (s : Stores) (key : CacheKey) : Prop where
  entry : ∀ i, s.entryAt key.text = some i →
    LastWrite history key i.value ∧ Negative.ofBody? accepted i.value = none
  negative : ∀ i, s.negativeAt key.text = some i →
    ∃ body, LastWrite history key body ∧ Negative.ofBody? accepted body = some i.value

variable {config : CacheConfig} {history : List Access} {s : Stores} {key : CacheKey} {body : ByteArray}

theorem LastWrite.concat (h : LastWrite history key body) {a : Access} (ha : ¬ a.Renews key) :
    LastWrite (history ++ [a]) key body := by
  obtain ⟨before, later, rfl, hlater⟩ := h
  refine ⟨before, later ++ [a], by simp, fun a' ha' => ?_⟩
  rcases List.mem_append.1 ha' with hm | hm
  · exact hlater a' hm
  · rw [List.mem_singleton.1 hm]
    exact ha

theorem LastWrite.put (history : List Access) (key : CacheKey) (body : ByteArray) :
    LastWrite (history ++ [.put key body]) key body :=
  ⟨history, [], rfl, fun _ h => by cases h⟩

theorem Traced.of_absent {accepted : Nat} (h : s.Absent key.text) :
    Traced accepted history s key where
  entry i hi := by rw [h.1] at hi; cases hi
  negative i hi := by rw [h.2] at hi; cases hi

theorem Traced.apply (h : ∀ key, Traced config.maxAcceptedBytes.toNat history s key) (now : Instant)
    (a : Access) (key : CacheKey) :
    Traced config.maxAcceptedBytes.toNat (history ++ [a]) (a.apply config now s) key := by
  rcases s.apply_cases config now a key.text with ⟨key', body, rfl, hkey⟩ | habsent | ⟨hother, hwithin⟩
  · obtain rfl := CacheKey.ext_text hkey
    have hself := s.put_self now config.maxAcceptedBytes.toNat key'.text body
    split at hself
    · rename_i record hbody
      refine ⟨fun i hi => ?_, fun i hi => ?_⟩
      · cases hself.1.symm.trans hi
      · cases hself.2.symm.trans hi
        exact ⟨body, .put history key' body, hbody⟩
    · rename_i hbody
      refine ⟨fun i hi => ?_, fun i hi => ?_⟩
      · cases hself.1.symm.trans hi
        exact ⟨.put history key' body, hbody⟩
      · cases hself.2.symm.trans hi
  · exact .of_absent habsent
  · have ha := hother key rfl
    refine ⟨fun i hi => ?_, fun i hi => ?_⟩
    · obtain ⟨hlast, hbody⟩ := (h key).entry i (hwithin.entry i hi)
      exact ⟨hlast.concat ha, hbody⟩
    · obtain ⟨body, hlast, hbody⟩ := (h key).negative i (hwithin.negative i hi)
      exact ⟨body, hlast.concat ha, hbody⟩

theorem Traced.replay (h : ∀ key, Traced config.maxAcceptedBytes.toNat history s key) (now : Instant)
    (accesses : List Access) (key : CacheKey) :
    Traced config.maxAcceptedBytes.toNat (history ++ accesses) (s.replay config now accesses) key := by
  induction accesses generalizing history s with
  | nil =>
    rw [List.append_nil]
    exact h key
  | cons a accesses ih =>
    rw [List.append_cons]
    exact ih (Traced.apply h now a)

/-! ## What is served -/

/-- What is on record and not oversized is the body that was written. -/
theorem Traced.of_holds {accepted : Nat} (h : Traced accepted history s key)
    (hfound : s.Holds key.text body) : LastWrite history key body ∧ body.size ≤ accepted := by
  rcases hfound with ⟨i, hi, rfl⟩ | ⟨i, hi, hempty, rfl⟩
  · obtain ⟨hlast, hbody⟩ := h.entry i hi
    exact ⟨hlast, (Negative.ofBody?_eq_none.1 hbody).2⟩
  · obtain ⟨body, hlast, hbody⟩ := h.negative i hi
    rw [hempty] at hbody
    rw [Negative.ofBody?_eq_empty.1 hbody] at hlast
    exact ⟨hlast, Nat.zero_le _⟩

theorem Purpose.answer_eq_body {p : Purpose} {outcome : Outcome} (h : p.answer outcome = .body body) :
    outcome = .body body := by
  cases outcome with
  | body bytes =>
    cases p with
    | refresh => cases h
    | fetch | alone => cases h; rfl
  | failure | crash => cases h

namespace Session

/-- In the step `t`, a fetch with the given parameters and compute function
ends with a body. -/
inductive Answered (s : Session) (t : Step) : Params → Compute → ByteArray → Prop
  | atOnce {id : CallId} {params : Params} {compute : Compute} {hold : Bool} {body : ByteArray}
    (action : t.action = .fetch id params compute hold)
    (reply : (s.step t.action t.settled).1 = .call (.done (.body body))) :
    Answered s t params compute body
  /-- The computation that it held open ends. -/
  | finished {id : CallId} {job : OpenComputation} {body : ByteArray} (action : t.action = .finish id)
    (found : s.running.find? (·.id = id) = some job)
    (reply : (s.step t.action t.settled).1 = .ended (.answered (.body body))) :
    Answered s t job.key.params job.compute body
  /-- It waited, and goes on in the poll; the events of a poll are those of
  the fetches that go on, in their order. -/
  | resumed {f : WaitingFetch} {id : CallId} {body : ByteArray}
    (event : (f, (id, .done (.body body))) ∈
      (s.perform t.action).2.ready.zip (s.step t.action t.settled).2.1) :
    Answered s t f.key.params f.compute body

/-- A launched computation that ends with a body computed it. -/
theorem launch_body {s : Session} {job : OpenComputation} {hold : Bool}
    (h : (s.launch job hold).1 = .done (.body body)) : job.compute job.key.params = .body body := by
  rw [launch_fst] at h
  split at h
  · cases h
  · exact Purpose.answer_eq_body (Progress.done.inj h)

/-- A fetch that ends at once computed its body or found it. -/
theorem fetch_body {s : Session} {id : CallId} {compute : Compute} {hold : Bool}
    (h : (s.fetch id key compute hold).1 = .done (.body body)) :
    compute key.params = .body body ∨ (s.cache.lookup s.now key).1 = .served body := by
  cases hl : (s.cache.lookup s.now key).1 with
  | served body' =>
    rw [fetch_served _ _ _ _ _ hl] at h
    cases h
    exact .inr rfl
  | bypass =>
    rw [fetch_bypass _ _ _ _ _ hl] at h
    exact .inl (launch_body h)
  | missing =>
    cases hk : s.cache.gate.isInFlight key.text with
    | false =>
      rw [fetch_owner _ _ _ _ _ hl hk] at h
      exact .inl (launch_body h)
    | true =>
      rw [fetch_waits _ _ _ _ _ hl hk] at h
      cases h

/-- A fetch that goes on computed its body or found it. -/
theorem resume_body {s : Session} {f : WaitingFetch} (h : (s.resume f).1 = .done (.body body)) :
    f.compute f.key.params = .body body ∨ (s.cache.lookup s.now f.key).1 = .served body := by
  rw [resume_fst] at h
  split at h
  · rename_i found
    cases h
    exact .inr found
  · split at h
    · cases h
    · exact .inl (Purpose.answer_eq_body (Progress.done.inj h))

theorem finish_body {s : Session} {id : CallId} {job : OpenComputation}
    (found : s.running.find? (·.id = id) = some job) (h : (s.finish id).1 = .answered (.body body)) :
    job.compute job.key.params = .body body := by
  rw [finish_found s id found] at h
  simp only at h
  split at h
  · cases h
  · exact Purpose.answer_eq_body (Ending.answered.inj h)

/-- The history that leads to a state traces what the stores hold there. -/
theorem traced_after {s : Session} (hconfig : s.cache.config = config)
    (h : ∀ key, Traced config.maxAcceptedBytes.toNat history s.cache.stores key) (run : List Step)
    (key : CacheKey) :
    Traced config.maxAcceptedBytes.toNat (history ++ s.history run) (s.after run).cache.stores key := by
  induction run generalizing s history with
  | nil =>
    rw [Session.history, List.append_nil]
    exact h key
  | cons t run ih =>
    rw [Session.history, ← List.append_assoc]
    refine ih ((s.config_next t).trans hconfig) fun key => ?_
    rw [stores_next, hconfig]
    exact Traced.replay h _ _ key

/-- Each event of a list is of the call in its place. -/
theorem eq_of_mem_zip_map {α β : Type} {l : List α} {g : α → β} {a : α} {b : β}
    (h : (a, b) ∈ l.zip (l.map g)) : b = g a := by
  induction l with
  | nil => cases h
  | cons a' l ih =>
    rw [List.map_cons, List.zip_cons_cons, List.mem_cons] at h
    rcases h with he | hm
    · cases he
      rfl
    · exact ih hm

/-- A fetch that ends with a body computed it itself or was served the last
write of its parameters. -/
theorem Answered.origin {s : Session} {t : Step} {params : Params} {compute : Compute}
    (ha : s.Answered t params compute body)
    (h : ∀ key, Traced s.cache.config.maxAcceptedBytes.toNat history s.cache.stores key) :
    compute params = .body body ∨
      LastWrite (history ++ s.accesses t.action) (.ofParams params) body ∧
        body.size ≤ s.cache.config.maxAcceptedBytes.toNat := by
  cases ha with
  | atOnce action reply =>
    rw [step_fst, action] at reply
    rcases fetch_body (Reply.call.inj reply) with hc | hserved
    · exact .inl hc
    · obtain ⟨hlast, hsize⟩ := (h _).of_holds (ResponseCache.holds_of_lookup _ _ _ hserved)
      refine .inr ⟨?_, hsize⟩
      rw [action]
      simp only [accesses, ResponseCache.enter_eq, hserved]
      exact hlast.concat fun hf => hf
  | finished action found reply =>
    rw [step_fst, action] at reply
    exact .inl (finish_body found (Reply.ended.inj reply))
  | @resumed f id _ event =>
    -- The poll looks up what the action has left.
    rw [step_events] at event
    split at event
    · rw [settle_events] at event
      have hp := s.perform_performed t.action
      have hperformed : ∀ key, Traced s.cache.config.maxAcceptedBytes.toNat
          (history ++ s.accesses t.action) (s.perform t.action).2.cache.stores key := by
        rw [hp.stores]
        exact Traced.replay h _ _
      have hevent := eq_of_mem_zip_map event
      rcases resume_body (Prod.mk.inj hevent).2.symm with hc | hserved
      · exact .inl hc
      · rw [CacheKey.ofParams_params]
        exact .inr ((hperformed _).of_holds (ResponseCache.holds_of_lookup _ _ _ hserved))
    · rw [List.zip_nil_right] at event
      cases event

/-- **Served bodies come from the last write.** A fetch that ends with a body
computed it itself, or the body is the last that was written for its
parameters, has not been invalidated since, and is of an accepted size; a
`get` finds only bodies of the second kind. -/
theorem served_from_last_write {config : CacheConfig} {s₀ : Session} (h : Session.new config = .ok s₀)
    (run : List Step) (t : Step) :
    (∀ params compute body, (s₀.after run).Answered t params compute body →
      compute params = .body body ∨
        LastWrite (s₀.history run ++ (s₀.after run).accesses t.action) (.ofParams params) body ∧
          body.size ≤ config.maxAcceptedBytes.toNat) ∧
    ∀ params body, t.action = .get params →
      ((s₀.after run).step t.action t.settled).1 = .body (some body) →
      LastWrite (s₀.history run ++ (s₀.after run).accesses t.action) (.ofParams params) body ∧
        body.size ≤ config.maxAcceptedBytes.toNat := by
  obtain ⟨-, queue, hs₀⟩ := new_eq_ok h
  have hconfig : s₀.cache.config = config.clamped := by rw [hs₀]; rfl
  have haccepted : (s₀.after run).cache.config.maxAcceptedBytes = config.maxAcceptedBytes := by
    rw [config_after, hconfig]
    rfl
  have hstart : ∀ key, Traced config.clamped.maxAcceptedBytes.toNat [] s₀.cache.stores key := by
    intro key
    rw [hs₀]
    exact .of_absent ⟨rfl, rfl⟩
  have htraced := traced_after hconfig hstart run
  refine ⟨fun params compute body ha => ?_, fun params body haction hreply => ?_⟩
  · rw [← haccepted]
    exact ha.origin (by rw [haccepted]; exact htraced)
  · rw [step_fst, haction] at hreply
    obtain ⟨hlast, hsize⟩ :=
      (htraced (.ofParams params)).of_holds (Stores.holds_of_get (Reply.body.inj hreply))
    refine ⟨?_, hsize⟩
    rw [haction]
    exact hlast.concat fun hf => hf

/-- What was written last is served, be it older than what the fetch would
compute. -/
theorem served_from_last_write_small : Session.new .small = .ok .small ∧
    (small.after [⟨.set default ⟨#[7]⟩, true⟩]).Answered ⟨.fetch "a" default (fun _ => .crash) false, true⟩
      default (fun _ => .crash) ⟨#[7]⟩ ∧
    LastWrite [.put (.ofParams default) ⟨#[7]⟩, .find (.ofParams default)] (.ofParams default) ⟨#[7]⟩ := by
  have ha : (small.after [⟨.set default ⟨#[7]⟩, true⟩]).Answered
      ⟨.fetch "a" default (fun _ => .crash) false, true⟩ default (fun _ => .crash) ⟨#[7]⟩ := .atOnce rfl rfl
  rcases (served_from_last_write new_small [⟨.set default ⟨#[7]⟩, true⟩] _).1 _ _ _ ha with hc | hlast
  · cases hc
  · exact ⟨new_small, ha, hlast.1⟩

end Session

end FizzService
