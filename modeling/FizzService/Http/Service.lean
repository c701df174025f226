/-
The service: its state, its endpoints, and the answer to each request. Requests come one at a
time, and each is answered before the next comes. A report of health after the end of the calendar
crashes the service; every other request is answered.
-/
import FizzService.Cache.Response
import FizzService.Config.Service
import FizzService.Http.Error
import FizzService.Query
import FizzService.RequestCounter
import FizzService.Sequence
import FizzService.Timestamp

namespace FizzService

structure Service where
  /-- None when the service runs without a cache. -/
  cache : Option ResponseCache
  compute : Compute
  limits : Limits
  requests : RequestCounter
  now : Instant
  /-- How long after the start of 1970 the clock was started. -/
  epoch : Duration

/-- What can be asked for. -/
inductive Endpoint where
  | sequence
  | health
  | readiness
  | stats
  | metrics
deriving DecidableEq, Repr

namespace Endpoint

def path : Endpoint → String
  | sequence => "/fizz-buzz"
  | health => "/health"
  | readiness => "/readiness"
  | stats => "/stats"
  | metrics => "/metrics"

def all : List Endpoint := [sequence, health, readiness, stats, metrics]

/-- Paths are compared as they are written. -/
def ofPath? (path : String) : Option Endpoint := all.find? (·.path = path)

/-- The methods that every endpoint answers. -/
def allowed : List (String × String) := [("allow", "GET,HEAD")]

end Endpoint

namespace Service

def name : String := "fizz-buzz"

def version : String := "0.1.0"

/-- The compute function of the service itself. -/
def renderer : Compute := fun p => .body p.render

/-- A service that starts with the given configuration. A cache configuration that is refused
leaves it without a cache. In which order its requests are listed is up to the map that counts
them. -/
def start (config : Config) (compute : Compute) (epoch : Duration)
    (traversal : Dict.Traversal RequestLabels Nat) : Except BuildError Service :=
  let service (cache : Option ResponseCache) : Service :=
    ⟨cache, compute, config.limits, .new traversal, 0, epoch⟩
  if config.cacheEnabled then
    match ResponseCache.new config.cache with
    | .ok cache => .ok (service (some cache))
    | .error (.refused _) => .ok (service none)
    | .error e => .error e
  else .ok (service none)

/-- The report that a service is alive, if its time can be written. -/
def healthReport? (service : String) (sinceEpoch : Duration) : Option Json :=
  (Timestamp.text? sinceEpoch).map fun timestamp =>
    .object
      [("result", .flag true),
        ("messages", .list [.text ("The service " ++ service ++ " responds correctly")]),
        ("version", .text version),
        ("timestamp", .text timestamp)]

/-- The body for parameters, from the cache if there is one. -/
def body (s : Service) (p : Params) : Except ComputeError ByteArray × Service :=
  match s.cache with
  | none => ((s.compute p).answer, s)
  | some cache =>
    let (result, cache) := cache.fetch s.now (.ofParams p) s.compute
    (result, { s with cache := some cache })

/-- The answer to a request for a sequence. A query that cannot be read is reported as text to
every client; only requests with valid parameters are counted. -/
def answerSequence (s : Service) (r : Request) : Response × Service :=
  match Query.ofText r.target.query with
  | .error e => (.typed 400 OutputFormat.text.contentType e.message.toUTF8, s)
  | .ok query =>
    match query.validate s.limits r.format with
    | .error e => ((ServiceError.invalidParameter e.message).response r.format, s)
    | .ok params =>
      let (result, s) := { s with requests := s.requests.record params }.body params
      match result with
      | .ok bytes => (.typed 200 r.format.contentType bytes, s)
      | .error e => ((ServiceError.compute e).response r.format, s)

/-- The answer of an endpoint, or none if it crashes. -/
def answer? (s : Service) (e : Endpoint) (r : Request) : Option (Response × Service) :=
  let json (j : Json) : Response := .typed 200 OutputFormat.json.contentType j.bytes
  match e with
  | .sequence => some (s.answerSequence r)
  | .health | .readiness => (healthReport? name (s.epoch + s.now)).map fun j => (json j, s)
  | .stats => some (json (Snapshot.report (s.cache.map (·.snapshot))), s)
  | .metrics => some (json s.requests.report, s)

/-- The answer by method and path. `OPTIONS` is answered on every path, with the methods that a
page from anywhere may use. -/
def route? (s : Service) (r : Request) : Option (Response × Service) :=
  let endpoint := Endpoint.ofPath? r.target.path
  if r.method = "OPTIONS" then
    let allow := if endpoint.isSome then Endpoint.allowed else []
    some (.bare 200 (allow ++
      [("access-control-allow-headers", "*"), ("access-control-allow-methods", "*")]), s)
  else
    match endpoint with
    | none => some (.bare 404 [], s)
    | some e =>
      if r.method = "GET" ∨ r.method = "HEAD" then s.answer? e r
      else some (.bare 405 Endpoint.allowed, s)

/-- The headers that every response carries. -/
def commonHeaders (requestId : ByteArray) (length : Nat) : List (String × ByteArray) :=
  [("access-control-allow-origin", "*".toUTF8),
    ("content-length", (toString length).toUTF8),
    ("vary",
      "origin, access-control-request-method, access-control-request-headers".toUTF8),
    ("x-request-id", requestId)]

/-- A response as it is sent. It repeats the id that the client gave to its request, or gives it
the fresh one. The response to `HEAD` is that to `GET` without the body. -/
def sent (freshId : ByteArray) (r : Request) (response : Response) : Response :=
  let requestId := (r.header? "x-request-id").getD freshId
  { response with
    headers := response.headers ++ commonHeaders requestId response.body.size
    body := if r.method = "HEAD" then .empty else response.body }

/-- The response to a request, or none if the service crashes. -/
def handle? (s : Service) (freshId : ByteArray) (r : Request) : Option (Response × Service) :=
  (s.route? r).map fun (response, s) => (sent freshId r response, s)

def advance (s : Service) (time : Duration) : Service := { s with now := s.now + time }

/-- Runs the refresh worker until no key waits. -/
def work (s : Service) : Service := { s with cache := s.cache.map (·.work s.now s.compute) }

/-- Purges the cache, if there is one, and tells how many items were removed. -/
def purge (s : Service) : Option Nat × Service :=
  match s.cache with
  | none => (none, s)
  | some cache =>
    let (removed, cache) := cache.purge s.now
    (some removed, { s with cache := some cache })

end Service

end FizzService
