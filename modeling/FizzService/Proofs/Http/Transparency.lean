/-
The cache is not to be seen from outside. A service with a cache and one
without it, started with the same configuration and given the same requests at
the same times, send the same responses (`cache_unobservable`). Only the
report of the statistics tells them apart, the ids they make up for requests
that bring none, and the order in which the report of the requests has those
that were asked for equally often: it is up to the maps that count them, and
each service has its own (`ties_observable`).

The two go in step: they differ in the cache and in the way through the counts
alone, and the cache is faithful to the compute function that both have
(`Twins`). Every event keeps that, be it a request, the passing of time, the
refresh worker or a purge.
-/
import FizzService.Proofs.Cache.Faithful
import FizzService.Proofs.Http.Metrics

namespace FizzService

/-- A request that the given endpoint answers. -/
def Request.asks (r : Request) (e : Endpoint) : Bool :=
  Endpoint.ofPath? r.target.path = some e && (r.method = "GET" || r.method = "HEAD")

/-- The bodies of two answers to a request are the same; if they report the
requests, they may differ in the order among those of equal count. -/
def Request.SameBody (r : Request) (x y : ByteArray) : Prop :=
  x = y ∨ r.asks .metrics = true ∧ ∃ rows rows', RequestCounter.SameButForTies rows rows' ∧
    x = (RequestCounter.reportOf rows).bytes ∧ y = (RequestCounter.reportOf rows').bytes

theorem Request.SameBody.size_eq {r : Request} {x y : ByteArray} (h : r.SameBody x y) : x.size = y.size := by
  rcases h with rfl | ⟨-, rows, rows', hrows, rfl, rfl⟩
  · rfl
  · exact hrows.size_report

/-- A response without its id. -/
def Response.anonymous (a : Response) : Response :=
  { a with headers := a.headers.filter (·.1 ≠ "x-request-id") }

/-- Two answers to a request are the same, up to an id that was made up for it;
when bodies are the same is left open. -/
structure Response.Same (same : Request → ByteArray → ByteArray → Prop) (r : Request) (a b : Response) : Prop where
  status : a.status = b.status
  headers : if (r.header? "x-request-id").isSome then a.headers = b.headers
    else a.anonymous.headers = b.anonymous.headers
  body : same r a.body b.body

/-- Two answers to an event are the same; the statistics are not compared. -/
def Event.SameAnswer (same : Request → ByteArray → ByteArray → Prop) (a b : Option Response) : Event → Prop
  | .request r =>
    a.isSome = b.isSome ∧ (r.asks .stats = false → ∀ x ∈ a, ∀ y ∈ b, Response.Same same r x y)
  | _ => a = none ∧ b = none

/-- Event by event, two answers that are the same. -/
def SameAnswers (same : Request → ByteArray → ByteArray → Prop) :
    List Event → List (Option Response) → List (Option Response) → Prop
  | [], [], [] => True
  | e :: events, a :: as, b :: bs => e.SameAnswer same a b ∧ SameAnswers same events as bs
  | _, _, _ => False

namespace Service

/-- The service `t` is `s` without the cache, and the cache does not matter.
The two may go through their counts in different ways. -/
structure Twins (s t : Service) : Prop where
  uncached : t.cache = none
  compute : t.compute = s.compute
  limits : t.limits = s.limits
  counts : t.requests.counts = s.requests.counts
  now : t.now = s.now
  epoch : t.epoch = s.epoch
  faithful : ∀ c, s.cache = some c → c.stores.Faithful s.compute

variable {s t : Service} {r : Request}

/-! ## One request -/

theorem Twins.body (h : s.Twins t) (p : Params) :
    (s.body p).1 = (t.body p).1 ∧ (s.body p).2.Twins (t.body p).2 := by
  have huncached : t.body p = ((s.compute p).answer, t) := by
    rw [Service.body, h.uncached, h.compute]
  rw [huncached]
  unfold Service.body
  cases hc : s.cache with
  | none => exact ⟨rfl, h⟩
  | some c =>
    obtain ⟨hanswer, hfaithful⟩ :=
      ResponseCache.fetch_faithful (h.faithful c hc) s.now (.ofParams p)
    refine ⟨hanswer, ?_⟩
    refine { h with faithful := fun c' hc' => ?_ }
    cases hc'
    exact hfaithful

theorem Twins.counted (h : s.Twins t) (p : Params) : (s.counted p).Twins (t.counted p) := by
  refine { h with counts := ?_ }
  simp only [Service.counted, RequestCounter.record, RequestCounter.get, h.counts]

theorem Twins.answerSequence (h : s.Twins t) (r : Request) :
    (s.answerSequence r).1 = (t.answerSequence r).1 ∧
      (s.answerSequence r).2.Twins (t.answerSequence r).2 := by
  cases hread : Query.ofText r.target.query with
  | error e =>
    rw [answerSequence_unread hread, answerSequence_unread hread]
    exact ⟨rfl, h⟩
  | ok query =>
    cases hvalid : query.validate s.limits r.format with
    | error e =>
      rw [answerSequence_refused hread hvalid, answerSequence_refused hread (h.limits ▸ hvalid)]
      exact ⟨rfl, h⟩
    | ok p =>
      obtain ⟨hbody, htwins⟩ := (h.counted p).body p
      rw [answerSequence_counted hread hvalid, answerSequence_counted hread (h.limits ▸ hvalid), hbody]
      exact ⟨rfl, htwins⟩

/-- Both crash, or both respond to a request and go on in step. -/
def Alike (r : Request) : Option (Response × Service) → Option (Response × Service) → Prop
  | some (a, s), some (b, t) =>
    (r.asks .stats = false → ∃ body, b = { a with body := body } ∧ r.SameBody a.body body) ∧ s.Twins t
  | none, none => True
  | _, _ => False

theorem Alike.of_eq {a b : Response} (hab : a = b) (h : s.Twins t) : Alike r (some (a, s)) (some (b, t)) :=
  ⟨fun _ => ⟨b.body, by rw [hab], .inl (by rw [hab])⟩, h⟩

theorem Twins.answer? (h : s.Twins t) {e : Endpoint} (hasks : r.asks e = true) :
    Alike r (s.answer? e r) (t.answer? e r) := by
  cases e with
  | sequence => exact .of_eq (h.answerSequence r).1 (h.answerSequence r).2
  | health | readiness =>
    simp only [Service.answer?, h.epoch, h.now]
    cases healthReport? name (s.epoch + s.now) with
    | none => trivial
    | some report => exact .of_eq rfl h
  | stats => exact ⟨fun hnot => (by rw [hasks] at hnot; cases hnot), h⟩
  | metrics =>
    refine ⟨fun _ => ⟨t.requests.report.bytes, rfl, .inr ⟨hasks, _, _, ?_, rfl, rfl⟩⟩, h⟩
    exact RequestCounter.SameButForTies.listing h.counts

theorem Twins.route? (h : s.Twins t) (r : Request) : Alike r (s.route? r) (t.route? r) := by
  unfold Service.route?
  by_cases hoptions : r.method = "OPTIONS"
  · simp only [hoptions, if_true]
    exact .of_eq rfl h
  · simp only [hoptions, if_false]
    cases he : Endpoint.ofPath? r.target.path with
    | none => exact .of_eq rfl h
    | some e =>
      by_cases hmethod : r.method = "GET" ∨ r.method = "HEAD"
      · simp only [hmethod, if_true]
        exact h.answer? (by simp [Request.asks, he, hmethod])
      · simp only [hmethod, if_false]
        exact .of_eq rfl h

/-- The id that a request brings or is given is all that the headers of two
responses can differ in. -/
theorem same_sent {a : Response} {body : ByteArray} (h : r.SameBody a.body body) (id id' : ByteArray) :
    Response.Same Request.SameBody r (sent id r a) (sent id' r { a with body := body }) := by
  refine ⟨rfl, ?_, ?_⟩
  · simp only [sent, h.size_eq]
    cases hid : r.header? "x-request-id" with
    | some brought => exact rfl
    | none =>
      -- The headers that every response carries differ in the last one only.
      simp only [Option.isSome_none, Bool.false_eq_true, if_false, Option.getD_none, Response.anonymous,
        List.filter_append]
      rfl
  · show r.SameBody (if r.method = "HEAD" then .empty else a.body) (if r.method = "HEAD" then .empty else body)
    split
    · exact .inl rfl
    · exact h

/-! ## A run -/

theorem Twins.request (h : s.Twins t) (r : Request) (id id' : ByteArray) :
    (Event.request r).SameAnswer Request.SameBody (s.meet id (.request r)).1 (t.meet id' (.request r)).1 ∧
      (s.meet id (.request r)).2.Twins (t.meet id' (.request r)).2 := by
  have hroute := h.route? r
  rw [meet_request, meet_request]
  generalize s.route? r = x at hroute ⊢
  generalize t.route? r = y at hroute ⊢
  rcases x with _ | ⟨a, s'⟩ <;> rcases y with _ | ⟨b, t'⟩
  · exact ⟨⟨rfl, fun _ a ha => by cases ha⟩, h⟩
  · cases hroute
  · cases hroute
  · obtain ⟨hsame, htwins⟩ := hroute
    refine ⟨⟨rfl, fun hasks x hx y hy => ?_⟩, htwins⟩
    obtain ⟨body, rfl, hbody⟩ := hsame hasks
    cases hx
    cases hy
    exact same_sent hbody id id'

theorem Twins.meet (h : s.Twins t) (e : Event) (id id' : ByteArray) :
    e.SameAnswer Request.SameBody (s.meet id e).1 (t.meet id' e).1 ∧ (s.meet id e).2.Twins (t.meet id' e).2 := by
  cases e with
  | request r => exact h.request r id id'
  | advance time =>
    refine ⟨⟨rfl, rfl⟩, ?_⟩
    exact { h with now := congrArg (· + time) h.now }
  | work =>
    refine ⟨⟨rfl, rfl⟩, { h with uncached := ?_, faithful := fun c hc => ?_ }⟩
    · simp only [Service.meet, Service.work, h.uncached, Option.map_none]
    · obtain ⟨before, hbefore, rfl⟩ := Option.map_eq_some_iff.1 hc
      exact ResponseCache.work_faithful (h.faithful before hbefore)
  | purge =>
    refine ⟨⟨rfl, rfl⟩, ?_⟩
    simp only [Service.meet, Service.purge, h.uncached]
    cases hc : s.cache with
    | none => exact h
    | some before =>
      refine { h with faithful := fun c hc' => ?_ }
      cases hc'
      exact ResponseCache.purge_faithful (h.faithful before hc)

theorem Twins.answers (h : s.Twins t) (events : List Event) (ids ids' : Nat → ByteArray) :
    SameAnswers Request.SameBody events (s.answers ids events) (t.answers ids' events) := by
  induction events generalizing s t ids ids' with
  | nil => trivial
  | cons e events ih =>
    obtain ⟨hsame, htwins⟩ := h.meet e (ids 0) (ids' 0)
    exact ⟨hsame, ih htwins _ _⟩

/-- **The cache is not to be seen.** With every configuration from which a cache
can be built, the service that has it and the one that has none give the same
answers to the same requests, whatever is asked, however much time passes in
between, and whenever the worker runs or the cache is purged. In the report of
the requests, those of equal count may stand in different orders, since each
service goes through its counts in its own way. -/
theorem cache_unobservable {config : Config} {cache : ResponseCache}
    (h : ResponseCache.new config.cache = .ok cache) (compute : Compute) (epoch : Duration)
    (traversal traversal' : Dict.Traversal RequestLabels Nat) :
    ∃ cached uncached,
      Service.start { config with cacheEnabled := true } compute epoch traversal = .ok cached ∧
      cached.cache = some cache ∧
      Service.start { config with cacheEnabled := false } compute epoch traversal' = .ok uncached ∧
      uncached.cache = none ∧
      ∀ (events : List Event) (ids ids' : Nat → ByteArray),
        SameAnswers Request.SameBody events (cached.answers ids events) (uncached.answers ids' events) := by
  refine ⟨⟨some cache, compute, config.limits, .new traversal, 0, epoch⟩,
    ⟨none, compute, config.limits, .new traversal', 0, epoch⟩, ?_, rfl, rfl, rfl, fun events ids ids' => ?_⟩
  · have hnew : ResponseCache.new ({ config with cacheEnabled := true } : Config).cache = .ok cache := h
    simp only [Service.start, hnew, if_true]
  · refine Twins.answers ?_ events ids ids'
    refine ⟨rfl, rfl, rfl, rfl, rfl, rfl, fun c hc => ?_⟩
    cases hc
    exact ResponseCache.new_faithful h

/-- The request for the report of the requests. -/
def reportRequest : Request := ⟨"GET", .ofText Endpoint.metrics.path, []⟩

/-- Two sequences are asked for once each. -/
def onceEach : List Event :=
  [.request (sequenceRequest "limit=1".toList []), .request (sequenceRequest "limit=2".toList [])]

/-- Two sequences are asked for once each, and then the report. -/
def tie : List Event := onceEach ++ [.request reportRequest]

/-- The default configuration has a cache, and with it and without the answers
are the same, whichever way the two services go through their counts. -/
theorem cache_unobservable_default : ∃ cache, ResponseCache.new ({} : Config).cache = .ok cache ∧
    ∃ cached uncached,
      Service.start {} renderer 0 .inserted = .ok cached ∧ cached.cache = some cache ∧
      Service.start { cacheEnabled := false } renderer 0 .reversed = .ok uncached ∧ uncached.cache = none ∧
      ∀ ids ids' : Nat → ByteArray,
        SameAnswers Request.SameBody tie (cached.answers ids tie) (uncached.answers ids' tie) := by
  obtain ⟨cache, hnew⟩ : ∃ cache, ResponseCache.new ({} : Config).cache = .ok cache := ⟨_, rfl⟩
  obtain ⟨cached, uncached, hcached, hcache, huncached, hnone, hsame⟩ :=
    cache_unobservable hnew renderer 0 .inserted .reversed
  exact ⟨cache, hnew, cached, uncached, hcached, hcache, huncached, hnone, fun ids ids' => hsame tie ids ids'⟩

/-- The report of a tie has the two sequences in the order in which the service
goes through its counts. -/
theorem answers_tie {traversal : Dict.Traversal RequestLabels Nat} (hrequests : s.requests = .new traversal)
    (hlimits : s.limits = ({} : Config).limits) (ids : Nat → ByteArray) :
    ∃ first second response, s.answers ids tie = [first, second, some response] ∧
      response.body = (RequestCounter.mk ⟨[(⟨1, 0, 0, "", ""⟩, 1), (⟨2, 0, 0, "", ""⟩, 1)]⟩ traversal).report.bytes := by
  obtain ⟨response, hhandle, -, hbody⟩ :=
    handle?_metrics (s := s.after ids onceEach) (r := reportRequest) rfl rfl (ids 2)
  have hlast : ((s.after ids onceEach).meet (ids 2) (.request reportRequest)).1 = some response := by
    simp only [meet, hhandle]
  refine ⟨_, _, response, congrArg (fun last => [_, _, last]) hlast, ?_⟩
  rw [hbody, requests_after, hrequests, hlimits]
  rfl

/-- The order among sequences of equal count tells two services apart. -/
theorem ties_observable : ∃ cache cached uncached, ResponseCache.new ({} : Config).cache = .ok cache ∧
    Service.start {} renderer 0 .inserted = .ok cached ∧ cached.cache = some cache ∧
    Service.start { cacheEnabled := false } renderer 0 .reversed = .ok uncached ∧ uncached.cache = none ∧
    ∀ ids ids' : Nat → ByteArray,
      ¬ SameAnswers (fun _ x y => x = y) tie (cached.answers ids tie) (uncached.answers ids' tie) := by
  obtain ⟨cache, hnew⟩ : ∃ cache, ResponseCache.new ({} : Config).cache = .ok cache := ⟨_, rfl⟩
  refine ⟨cache, ⟨some cache, renderer, ({} : Config).limits, .new .inserted, 0, 0⟩,
    ⟨none, renderer, ({} : Config).limits, .new .reversed, 0, 0⟩, hnew, ?_, rfl, rfl, rfl, fun ids ids' hsame => ?_⟩
  · simp only [Service.start, hnew, if_true]
  · obtain ⟨_, _, response, hanswers, hbody⟩ := answers_tie (s := ⟨some cache, renderer, ({} : Config).limits,
      .new .inserted, 0, 0⟩) rfl rfl ids
    obtain ⟨_, _, response', hanswers', hbody'⟩ := answers_tie (s := ⟨none, renderer, ({} : Config).limits,
      .new .reversed, 0, 0⟩) rfl rfl ids'
    rw [hanswers, hanswers'] at hsame
    obtain ⟨-, -, ⟨-, hreport⟩, -⟩ := hsame
    have hbodies := (hreport (by decide) response rfl response' rfl).body
    rw [hbody, hbody'] at hbodies
    have hchars := Json.chars_of_bytes hbodies
    -- The two rows are sorted as they come, since their counts are equal.
    rw [RequestCounter.report, RequestCounter.report, RequestCounter.listing, RequestCounter.listing,
      List.mergeSort_of_pairwise (by decide), List.mergeSort_of_pairwise (by decide)] at hchars
    revert hchars
    decide +kernel

end Service

end FizzService
