/-
Runs of a service: requests, the passing of time, the refresh worker and purges,
in any order. A request for a sequence is answered in one of three ways
(`Service.answerSequence_cases`), no event changes the compute function or the
limits (`Service.settings_meet`), and a `GET` request for an endpoint gets the
answer of it (`Service.handle?_get`).
-/
import FizzService.Http.Service

namespace FizzService

/-- What happens to a service. -/
inductive Event where
  | request (r : Request)
  | advance (time : Duration)
  /-- The refresh worker runs until no key waits. -/
  | work
  | purge

theorem Endpoint.ofPath?_eq_some {path : String} {e : Endpoint} : ofPath? path = some e ↔ path = e.path := by
  constructor
  · intro h
    have hfound := List.find?_some h
    exact (of_decide_eq_true hfound).symm
  · rintro rfl
    cases e <;> rfl

namespace Service

/-- The response to an event, if it is a request and the service does not
crash, and the service after it. -/
def meet (s : Service) (freshId : ByteArray) : Event → Option Response × Service
  | .request r =>
    match s.handle? freshId r with
    | some (response, s) => (some response, s)
    | none => (none, s)
  | .advance time => (none, s.advance time)
  | .work => (none, s.work)
  | .purge => (none, s.purge.2)

theorem meet_request (s : Service) (freshId : ByteArray) (r : Request) : s.meet freshId (.request r) =
    match s.route? r with
    | some (response, s) => (some (sent freshId r response), s)
    | none => (none, s) := by
  simp only [meet, handle?]
  cases s.route? r <;> rfl

/-- The responses to the events of a run; for each event there is an id to
make up for it. -/
def answers (s : Service) (ids : Nat → ByteArray) : List Event → List (Option Response)
  | [] => []
  | e :: events => (s.meet (ids 0) e).1 :: (s.meet (ids 0) e).2.answers (fun n => ids (n + 1)) events

/-- The service that a run leaves; for each event there is an id to make up for it. -/
def after (s : Service) (ids : Nat → ByteArray) : List Event → Service
  | [] => s
  | e :: events => (s.meet (ids 0) e).2.after (fun n => ids (n + 1)) events

/-! ## The three ways of an answer -/

/-- The service that has counted a request for the parameters. -/
def counted (s : Service) (p : Params) : Service := { s with requests := s.requests.record p }

/-- The response with a body, or with the error that there is instead. -/
def bodyResponse (format : OutputFormat) : Except ComputeError ByteArray → Response
  | .ok bytes => .typed 200 format.contentType bytes
  | .error e => (ServiceError.compute e).response format

variable {s : Service} {r : Request} {query : Query}

theorem answerSequence_unread {e : QueryRejection} (hread : Query.ofText r.target.query = .error e) :
    s.answerSequence r = (.typed 400 OutputFormat.text.contentType e.message.toUTF8, s) := by
  simp only [answerSequence, hread]

theorem answerSequence_refused {e : ParameterError} (hread : Query.ofText r.target.query = .ok query)
    (hvalid : query.validate s.limits r.format = .error e) :
    s.answerSequence r = ((ServiceError.invalidParameter e.message).response r.format, s) := by
  simp only [answerSequence, hread, hvalid]

theorem answerSequence_counted {p : Params} (hread : Query.ofText r.target.query = .ok query)
    (hvalid : query.validate s.limits r.format = .ok p) :
    s.answerSequence r = (bodyResponse r.format ((s.counted p).body p).1, ((s.counted p).body p).2) := by
  simp only [answerSequence, hread, hvalid, bodyResponse, counted]
  cases (({ s with requests := s.requests.record p } : Service).body p).1 <;> rfl

/-- The query of a request is not read, or it is refused, or the request is
counted and answered with a body. -/
theorem answerSequence_cases (s : Service) (r : Request) :
    (∃ e, Query.ofText r.target.query = .error e ∧
      s.answerSequence r = (.typed 400 OutputFormat.text.contentType e.message.toUTF8, s)) ∨
    (∃ query e, Query.ofText r.target.query = .ok query ∧ query.validate s.limits r.format = .error e ∧
      s.answerSequence r = ((ServiceError.invalidParameter e.message).response r.format, s)) ∨
    ∃ query p, Query.ofText r.target.query = .ok query ∧ query.validate s.limits r.format = .ok p ∧
      s.answerSequence r =
        (bodyResponse r.format ((s.counted p).body p).1, ((s.counted p).body p).2) := by
  cases hread : Query.ofText r.target.query with
  | error e => exact .inl ⟨e, rfl, answerSequence_unread hread⟩
  | ok query =>
    cases hvalid : query.validate s.limits r.format with
    | error e => exact .inr (.inl ⟨query, e, rfl, hvalid, answerSequence_refused hread hvalid⟩)
    | ok p => exact .inr (.inr ⟨query, p, rfl, hvalid, answerSequence_counted hread hvalid⟩)

/-! ## What no event changes -/

/-- The compute function and the limits. -/
def settings (s : Service) : Compute × Limits := (s.compute, s.limits)

theorem settings_body (s : Service) (p : Params) : (s.body p).2.settings = s.settings := by
  unfold body
  split <;> rfl

theorem settings_answerSequence (s : Service) (r : Request) : (s.answerSequence r).2.settings = s.settings := by
  rcases s.answerSequence_cases r with ⟨e, -, hanswer⟩ | ⟨query, e, -, -, hanswer⟩ | ⟨query, p, -, -, hanswer⟩
  · rw [hanswer]
  · rw [hanswer]
  · rw [hanswer]
    exact settings_body (s.counted p) p

theorem settings_answer? {e : Endpoint} {answer : Response × Service}
    (h : s.answer? e r = some answer) : answer.2.settings = s.settings := by
  cases e with
  | sequence =>
    cases h
    exact settings_answerSequence s r
  | health | readiness =>
    obtain ⟨report, -, rfl⟩ := Option.map_eq_some_iff.1 h
    rfl
  | stats | metrics =>
    cases h
    rfl

theorem settings_route? {answer : Response × Service} (h : s.route? r = some answer) :
    answer.2.settings = s.settings := by
  unfold route? at h
  simp only at h
  split at h
  · cases h
    rfl
  · split at h
    · cases h
      rfl
    · split at h
      · exact settings_answer? h
      · cases h
        rfl

theorem settings_handle? {freshId : ByteArray} {answer : Response × Service}
    (h : s.handle? freshId r = some answer) : answer.2.settings = s.settings := by
  obtain ⟨⟨response, s'⟩, hrouted, rfl⟩ := Option.map_eq_some_iff.1 h
  have hsettings := settings_route? hrouted
  exact hsettings

theorem settings_meet (s : Service) (freshId : ByteArray) (e : Event) : (s.meet freshId e).2.settings = s.settings := by
  cases e with
  | request r =>
    simp only [meet]
    cases h : s.handle? freshId r with
    | none => rfl
    | some answer => exact settings_handle? h
  | advance time => rfl
  | work => rfl
  | purge =>
    simp only [meet, purge]
    split <;> rfl

/-! ## Requests -/

/-- The request for a sequence whose query is the given text. -/
def sequenceRequest (query : List Char) (headers : List (String × ByteArray)) : Request :=
  ⟨"GET", .ofText (Endpoint.sequence.path ++ "?" ++ String.ofList query), headers⟩

/-- A `GET` request for an endpoint gets the answer of it, with the headers that every response
carries. -/
theorem handle?_get {e : Endpoint} (hmethod : r.method = "GET") (hpath : r.target.path = e.path)
    (freshId : ByteArray) : s.handle? freshId r = (s.answer? e r).map fun answer =>
      ({ answer.1 with headers := answer.1.headers ++
          commonHeaders ((r.header? "x-request-id").getD freshId) answer.1.body.size }, answer.2) := by
  have hoptions : r.method ≠ "OPTIONS" := by rw [hmethod]; decide
  have hhead : r.method ≠ "HEAD" := by rw [hmethod]; decide
  have hroute : s.route? r = s.answer? e r := by
    simp only [route?, Endpoint.ofPath?_eq_some.2 hpath, if_neg hoptions]
    exact if_pos (.inl hmethod)
  simp only [handle?, hroute, sent, if_neg hhead]

end Service

end FizzService
