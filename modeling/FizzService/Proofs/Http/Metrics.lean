/-
The report of the requests. A request is counted if it asks for a sequence and
its parameters are read and found valid (`Request.asked?`), whatever becomes of
it then: it is counted before the cache or the compute function has a say
(`Service.requests_meet`). So the counter tallies the events of a run
(`Service.tallies_after`), and the report shows the tally
(`metrics_count_requests`).
-/
import FizzService.Proofs.Http.Run
import FizzService.Proofs.Http.Start
import FizzService.Proofs.RequestCounter

namespace FizzService

/-- The parameters in the query of a request, if they are read and valid. -/
def Request.params? (r : Request) (limits : Limits) : Option Params :=
  (Query.ofText r.target.query).toOption.bind fun query => (query.validate limits r.format).toOption

/-- The parameters for which a request asks for a sequence. -/
def Request.asked? (r : Request) (limits : Limits) : Option Params :=
  if (r.method = "GET" ∨ r.method = "HEAD") ∧ r.target.path = Endpoint.sequence.path then r.params? limits else none

def Event.asked? (e : Event) (limits : Limits) : Option Params :=
  match e with
  | .request r => r.asked? limits
  | _ => none

/-- A request may be counted, or not. -/
def RequestCounter.note (c : RequestCounter) : Option Params → RequestCounter
  | some p => c.record p
  | none => c

theorem RequestCounter.Tallies.note {c : RequestCounter} {asked : List RequestLabels} (h : c.Tallies asked)
    (p : Option Params) : (c.note p).Tallies (asked ++ (p.map (·.labels)).toList) := by
  cases p with
  | none =>
    rw [Option.map_none, Option.toList_none, List.append_nil]
    exact h
  | some p => exact h.record p

namespace Service

variable {s : Service} {r : Request}

theorem requests_body (s : Service) (p : Params) : (s.body p).2.requests = s.requests := by
  unfold body
  split <;> rfl

theorem requests_answerSequence (s : Service) (r : Request) :
    (s.answerSequence r).2.requests = s.requests.note (r.params? s.limits) := by
  rw [Request.params?]
  rcases s.answerSequence_cases r with ⟨e, hread, hanswer⟩ | ⟨query, e, hread, hvalid, hanswer⟩ |
    ⟨query, p, hread, hvalid, hanswer⟩
  · rw [hanswer, hread]
    rfl
  · simp only [hanswer, hread, Except.toOption, Option.bind_some, hvalid]
    rfl
  · simp only [hanswer, hread, Except.toOption, Option.bind_some, hvalid]
    exact requests_body (s.counted p) p

/-- No endpoint but that of the sequences counts its requests. -/
theorem requests_answer? {e : Endpoint} {answer : Response × Service} (h : s.answer? e r = some answer) :
    answer.2.requests = s.requests.note (if e = .sequence then r.params? s.limits else none) := by
  cases e with
  | sequence =>
    cases h
    exact requests_answerSequence s r
  | health | readiness =>
    obtain ⟨report, -, rfl⟩ := Option.map_eq_some_iff.1 h
    rfl
  | stats | metrics =>
    cases h
    rfl

/-- A request that no endpoint is there to answer is not for a sequence. -/
theorem asked?_of_path (hpath : Endpoint.ofPath? r.target.path = none) (limits : Limits) :
    r.asked? limits = none := by
  refine if_neg fun ⟨_, hsequence⟩ => ?_
  rw [Endpoint.ofPath?_eq_some.2 hsequence] at hpath
  cases hpath

theorem asked?_of_method (hmethod : ¬(r.method = "GET" ∨ r.method = "HEAD")) (limits : Limits) :
    r.asked? limits = none :=
  if_neg fun h => hmethod h.1

theorem asked?_of_endpoint {e : Endpoint} (hpath : Endpoint.ofPath? r.target.path = some e)
    (hmethod : r.method = "GET" ∨ r.method = "HEAD") (limits : Limits) :
    r.asked? limits = if e = .sequence then r.params? limits else none := by
  rw [Request.asked?, Endpoint.ofPath?_eq_some.1 hpath]
  cases e <;> simp [hmethod, Endpoint.path]

theorem requests_route? {answer : Response × Service} (h : s.route? r = some answer) :
    answer.2.requests = s.requests.note (r.asked? s.limits) := by
  unfold route? at h
  simp only at h
  split at h
  · rename_i hoptions
    cases h
    rw [asked?_of_method (by rw [hoptions]; decide)]
    rfl
  · split at h
    · rename_i hpath
      cases h
      rw [asked?_of_path hpath]
      rfl
    · rename_i e hpath
      split at h
      · rename_i hmethod
        rw [asked?_of_endpoint hpath hmethod, requests_answer? h]
      · rename_i hmethod
        cases h
        rw [asked?_of_method hmethod]
        rfl

/-- Only a report of health may crash. -/
theorem asked?_of_crash (h : s.route? r = none) : r.asked? s.limits = none := by
  unfold route? at h
  simp only at h
  split at h
  · cases h
  · split at h
    · cases h
    · rename_i e hpath
      split at h
      · rename_i hmethod
        rw [asked?_of_endpoint hpath hmethod]
        refine if_neg ?_
        rintro rfl
        cases h
      · cases h

/-- Each event counts what it asks for, once. -/
theorem requests_meet (s : Service) (freshId : ByteArray) (e : Event) :
    (s.meet freshId e).2.requests = s.requests.note (e.asked? s.limits) := by
  cases e with
  | request r =>
    simp only [meet, handle?]
    cases hrouted : s.route? r with
    | none =>
      rw [Event.asked?, asked?_of_crash hrouted]
      rfl
    | some answer =>
      have hrequests := requests_route? hrouted
      exact hrequests
  | advance time => rfl
  | work => rfl
  | purge =>
    simp only [meet, purge]
    split <;> rfl

theorem limits_meet (s : Service) (freshId : ByteArray) (e : Event) : (s.meet freshId e).2.limits = s.limits :=
  congrArg (·.2) (settings_meet s freshId e)

/-- So does a run, event by event. -/
theorem requests_after (s : Service) (ids : Nat → ByteArray) (events : List Event) :
    (s.after ids events).requests = events.foldl (fun c e => c.note (e.asked? s.limits)) s.requests := by
  induction events generalizing s ids with
  | nil => rfl
  | cons e events ih =>
    rw [after, ih, limits_meet, requests_meet]
    rfl

/-- The answer to a request for the report. -/
theorem handle?_metrics (hmethod : r.method = "GET") (hpath : r.target.path = Endpoint.metrics.path)
    (freshId : ByteArray) : ∃ response, s.handle? freshId r = some (response, s) ∧ response.status = 200 ∧
      response.body = s.requests.report.bytes :=
  ⟨_, handle?_get hmethod hpath freshId, rfl, rfl⟩

end Service

end FizzService
