/-
The form of an answer. Three things can go wrong with a request for a sequence,
and each has its status and its message (`Service.Faults`): its query is not
read, a parameter is refused, or the computation fails. The answer is in the
format that the request asks for, be it a sequence or a fault, with one
exception: a query that is not read is answered in text whatever the request
asks for (`sequence_formatted`).
-/
import FizzService.Proofs.Http.Delivery

namespace FizzService

/-- The body of a response that reports a fault in a format. -/
def OutputFormat.faultBody (format : OutputFormat) (status : Nat) (message : String) : ByteArray :=
  match format with
  | .json => (ServiceError.report status message).bytes
  | .text => message.toUTF8

/-- An error is reported in the format asked for. -/
theorem ServiceError.response_eq (e : ServiceError) (format : OutputFormat) :
    e.response format = .typed e.status format.contentType (format.faultBody e.status e.message) := by
  cases format <;> rfl

/-- Whether the query of a request is read; if not, a field is given twice. -/
def Request.readable (r : Request) : Bool := (Query.ofText r.target.query).isOk

namespace Service

/-- What goes wrong with a request for a sequence, by its status and its message. -/
inductive Faults (s : Service) (r : Request) : Nat → String → Prop
  | unreadable {e : QueryRejection} (unread : Query.ofText r.target.query = .error e) : Faults s r 400 e.message
  | invalid {query : Query} {e : ParameterError} (read : Query.ofText r.target.query = .ok query)
    (refused : query.validate s.limits r.format = .error e) : Faults s r 412 e.message
  /-- The request has been counted by then. -/
  | uncomputed {query : Query} {p : Params} {e : ComputeError} (read : Query.ofText r.target.query = .ok query)
    (valid : query.validate s.limits r.format = .ok p) (failed : ((s.counted p).body p).1 = .error e) :
    Faults s r 500 e.message

/-- A response in a format: its content type is the one of the format, and if
anything went wrong, its status tells and its body reports it in the format. -/
structure Formatted (s : Service) (r : Request) (format : OutputFormat) (a : Response) : Prop where
  contentType : a.headers.filter (·.1 = "content-type") = [("content-type", format.contentType.toUTF8)]
  faultless : a.status = 200 → ∀ status message, ¬ s.Faults r status message
  fault : a.status ≠ 200 → ∃ message, s.Faults r a.status message ∧ a.body = format.faultBody a.status message

variable {s : Service} {r : Request} {format : OutputFormat} {status : Nat} {message : String}

theorem Faults.status_ne (h : s.Faults r status message) : status ≠ 200 := by
  cases h <;> decide

/-- Nothing goes wrong where a body is computed for parameters that are read and valid. -/
theorem not_faults {query : Query} {p : Params} {bytes : ByteArray} (hread : Query.ofText r.target.query = .ok query)
    (hvalid : query.validate s.limits r.format = .ok p)
    (hbody : ((s.counted p).body p).1 = .ok bytes) :
    ¬ s.Faults r status message := by
  intro h
  cases h with
  | unreadable unread => cases hread.symm.trans unread
  | invalid read refused =>
    cases hread.symm.trans read
    cases hvalid.symm.trans refused
  | uncomputed read valid failed =>
    cases hread.symm.trans read
    cases hvalid.symm.trans valid
    cases hbody.symm.trans failed

theorem Formatted.sequence (h : ∀ status message, ¬ s.Faults r status message) (format : OutputFormat)
    (bytes : ByteArray) : s.Formatted r format (.typed 200 format.contentType bytes) :=
  ⟨by simp [Response.typed], fun _ => h, fun hne => (hne rfl).elim⟩

theorem Formatted.of_fault (h : s.Faults r status message) (format : OutputFormat) :
    s.Formatted r format (.typed status format.contentType (format.faultBody status message)) :=
  ⟨by simp [Response.typed], fun hok => (h.status_ne hok).elim, fun _ => ⟨message, h, rfl⟩⟩

/-- The headers that every response carries leave its content type alone. -/
theorem Formatted.commonHeaders {a : Response} (h : s.Formatted r format a) (requestId : ByteArray) (length : Nat) :
    s.Formatted r format { a with headers := a.headers ++ commonHeaders requestId length } where
  contentType := by
    rw [List.filter_append, h.contentType]
    simp [Service.commonHeaders]
  faultless := h.faultless
  fault := h.fault

theorem formatted_answerSequence (s : Service) (r : Request) :
    s.Formatted r (if r.readable then r.format else .text) (s.answerSequence r).1 := by
  rw [Request.readable]
  rcases s.answerSequence_cases r with ⟨e, hread, hanswer⟩ | ⟨query, e, hread, hvalid, hanswer⟩ |
    ⟨query, p, hread, hvalid, hanswer⟩
  · rw [hanswer, hread]
    exact .of_fault (.unreadable hread) .text
  · rw [hanswer, hread, ServiceError.response_eq]
    exact .of_fault (.invalid hread hvalid) r.format
  · rw [hanswer, hread]
    simp only [Except.isOk, Except.toBool, if_true]
    cases hbody : ((s.counted p).body p).1 with
    | ok bytes => exact .sequence (fun _ _ => not_faults hread hvalid hbody) r.format bytes
    | error e =>
      rw [bodyResponse, ServiceError.response_eq]
      exact .of_fault (.uncomputed hread hvalid hbody) r.format

/-- **An answer has the format that its request asks for.** Every service answers
every `GET` request for a sequence, whatever its query and its headers. Where
the query is read, the content type is the one of the format asked for, and so
is the form of the body if the status is not 200: an object with the status as
its code and the message, or the bare message. A query that is not read is
answered in text to all. -/
theorem sequence_formatted (s : Service) {r : Request} (hmethod : r.method = "GET")
    (hpath : r.target.path = Endpoint.sequence.path) (freshId : ByteArray) :
    ∃ response s', s.handle? freshId r = some (response, s') ∧
      s.Formatted r (if r.readable then r.format else .text) response :=
  ⟨_, _, handle?_get hmethod hpath freshId, (formatted_answerSequence s r).commonHeaders _ _⟩

/-- A request for JSON. -/
def jsonRequest (target : String) : Request := ⟨"GET", .ofText target, [("content-type", "application/json".toUTF8)]⟩

/-- A parameter is refused, and the client is told in JSON. -/
theorem sequence_formatted_default : ∃ s₀, Service.start {} renderer 0 .inserted = .ok s₀ ∧
    ∀ freshId, ∃ response s', s₀.handle? freshId (jsonRequest "/fizz-buzz?limit=x") = some (response, s') ∧
      s₀.Formatted (jsonRequest "/fizz-buzz?limit=x") .json response := by
  obtain ⟨s₀, hstart⟩ : ∃ s₀, Service.start {} renderer 0 .inserted = .ok s₀ := ⟨_, rfl⟩
  have hformat : (if (jsonRequest "/fizz-buzz?limit=x").readable then (jsonRequest "/fizz-buzz?limit=x").format
      else .text) = OutputFormat.json := by decide +kernel
  refine ⟨s₀, hstart, fun freshId => ?_⟩
  obtain ⟨response, s', hhandle, hformatted⟩ :=
    sequence_formatted s₀ (r := jsonRequest "/fizz-buzz?limit=x") rfl rfl freshId
  rw [hformat] at hformatted
  exact ⟨response, s', hhandle, hformatted⟩

/-- A field is given twice, and a client that asked for JSON is told in text. -/
theorem unreadable_told_in_text : ∃ s₀, Service.start {} renderer 0 .inserted = .ok s₀ ∧
    (jsonRequest "/fizz-buzz?limit=1&limit=2").format = .json ∧
    ∀ freshId, ∃ response s', s₀.handle? freshId (jsonRequest "/fizz-buzz?limit=1&limit=2") = some (response, s') ∧
      response.status = 400 ∧
      response.headers.filter (·.1 = "content-type") ≠ [("content-type", OutputFormat.json.contentType.toUTF8)] ∧
      response.body = "Failed to deserialize query string: duplicate field `limit`".toUTF8 := by
  obtain ⟨s₀, hstart⟩ : ∃ s₀, Service.start {} renderer 0 .inserted = .ok s₀ := ⟨_, rfl⟩
  refine ⟨s₀, hstart, by decide +kernel, fun freshId => ?_⟩
  have hhandle := handle?_get (s := s₀) (r := jsonRequest "/fizz-buzz?limit=1&limit=2") (e := .sequence) rfl rfl freshId
  refine ⟨_, _, hhandle, rfl, ?_, rfl⟩
  rw [((formatted_answerSequence s₀ (jsonRequest "/fizz-buzz?limit=1&limit=2")).commonHeaders _ _).contentType]
  decide

end Service

end FizzService
