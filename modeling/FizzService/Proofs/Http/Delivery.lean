/-
A request for a sequence, from the text of its target to the body of its
response. Whatever a service has been asked before and however much time has
passed, it answers a request for parameters within its limits with the sequence
itself, in the form that the client asked for (`sequence_delivered`).

The target gives back the query that was written (`Target.ofText_query`), the
query the parameters (`Query.ofText_fields`, `Query.validate_fields`), and the
cache the body that the compute function returns for them, since the service
goes in step with one that has no cache (`Faithful.body`).
-/
import FizzService.Proofs.Http.Transparency
import FizzService.Proofs.Query

namespace FizzService

/-- A target is its path and its query, where neither of them shows a character that ends it. -/
theorem Target.ofText_query {path query : List Char} (hroot : path.head? = some '/')
    (hpath : ∀ x ∈ path, x ≠ '?' ∧ x ≠ '#') (hquery : ∀ x ∈ query, x ≠ '#') :
    Target.ofText (String.ofList (path ++ '?' :: query)) = ⟨String.ofList path, String.ofList query⟩ := by
  have hne : path ≠ [] := by rintro rfl; cases hroot
  have hwhole : (path ++ '?' :: query).takeWhile (· ≠ '#') = path ++ '?' :: query := by
    have hall : ∀ x ∈ path ++ '?' :: query, decide (x ≠ '#') = true := fun x hx => decide_eq_true <| by
      rcases List.mem_append.1 hx with hx | hx
      · exact (hpath x hx).2
      · rcases List.mem_cons.1 hx with rfl | hx
        · decide
        · exact hquery x hx
    rw [← List.append_nil (path ++ '?' :: query), List.takeWhile_append_of_pos hall]
    rfl
  have horigin : dropOrigin (path ++ '?' :: query) = path ++ '?' :: query :=
    if_pos (by rw [List.head?_append, hroot]; rfl)
  simp only [Target.ofText, String.toList_ofList, hwhole, horigin,
    Text.Form.cut_append fun x hx => (hpath x hx).1, if_neg hne]

namespace Service

variable {s : Service}

/-! ## The body of a response -/

/-- The cache, if there is one, holds what the compute function returns. -/
def Faithful (s : Service) : Prop := ∀ c, s.cache = some c → c.stores.Faithful s.compute

/-- A faithful service goes in step with itself without the cache. -/
theorem Faithful.twins (h : s.Faithful) : s.Twins { s with cache := none } :=
  ⟨rfl, rfl, rfl, rfl, rfl, rfl, h⟩

theorem Faithful.body (h : s.Faithful) (p : Params) : (s.body p).1 = (s.compute p).answer :=
  (h.twins.body p).1

theorem Faithful.meet (h : s.Faithful) (freshId : ByteArray) (e : Event) : (s.meet freshId e).2.Faithful :=
  (h.twins.meet e freshId freshId).2.faithful

theorem Faithful.start {config : Config} {compute : Compute} {epoch : Duration}
    {traversal : Dict.Traversal RequestLabels Nat} (h : start config compute epoch traversal = .ok s) :
    s.Faithful ∧ s.settings = (compute, config.limits) := by
  unfold Service.start at h
  by_cases henabled : config.cacheEnabled = true
  · rw [if_pos henabled] at h
    split at h
    · rename_i c hnew
      cases h
      refine ⟨fun c' hc' => ?_, rfl⟩
      cases hc'
      exact ResponseCache.new_faithful hnew
    · cases h
      exact ⟨fun _ hc => (by cases hc), rfl⟩
    · cases h
  · rw [if_neg henabled] at h
    cases h
    exact ⟨fun _ hc => (by cases hc), rfl⟩

theorem Faithful.after (h : s.Faithful) (ids : Nat → ByteArray) (events : List Event) :
    (s.after ids events).Faithful ∧ (s.after ids events).settings = s.settings := by
  induction events generalizing s ids with
  | nil => exact ⟨h, rfl⟩
  | cons e events ih =>
    obtain ⟨hfaithful, hsettings⟩ := ih (h.meet (ids 0) e) fun n => ids (n + 1)
    exact ⟨hfaithful, hsettings.trans (settings_meet s (ids 0) e)⟩

/-- Parameters that are read from a query are answered with what the compute function returns. -/
theorem Faithful.answerSequence (h : s.Faithful) {r : Request} {query : Query} {p : Params} {bytes : ByteArray}
    (hread : Query.ofText r.target.query = .ok query) (hvalid : query.validate s.limits r.format = .ok p)
    (hbytes : s.compute p = .body bytes) :
    (s.answerSequence r).1 = .typed 200 r.format.contentType bytes := by
  -- The request is counted before the cache is asked.
  have hbody : ((s.counted p).body p).1 = .ok bytes := by
    rw [Faithful.body (s := s.counted p) h]
    change (s.compute p).answer = _
    rw [hbytes]
    rfl
  rw [answerSequence_counted hread hvalid, hbody]
  rfl

theorem target_sequenceRequest {query : List Char} (hquery : ∀ x ∈ query, x ≠ '#')
    (headers : List (String × ByteArray)) :
    (sequenceRequest query headers).target = ⟨Endpoint.sequence.path, String.ofList query⟩ := by
  have htext : Endpoint.sequence.path ++ "?" ++ String.ofList query =
      String.ofList (Endpoint.sequence.path.toList ++ '?' :: query) := by
    rw [← String.toList_inj]
    simp
  rw [sequenceRequest, htext, Target.ofText_query rfl (by simp [Endpoint.path]) hquery, String.ofList_toList]

/-- A request for a sequence gets the answer to it. -/
theorem handle?_sequenceRequest {query : List Char} (hquery : ∀ x ∈ query, x ≠ '#')
    (headers : List (String × ByteArray)) (freshId : ByteArray) :
    ∃ requestId, s.handle? freshId (sequenceRequest query headers) =
      some ({ (s.answerSequence (sequenceRequest query headers)).1 with
        headers := (s.answerSequence (sequenceRequest query headers)).1.headers ++
          commonHeaders requestId (s.answerSequence (sequenceRequest query headers)).1.body.size },
        (s.answerSequence (sequenceRequest query headers)).2) := by
  have hpath : (sequenceRequest query headers).target.path = Endpoint.sequence.path := by
    rw [target_sequenceRequest hquery]
  exact ⟨_, handle?_get rfl hpath freshId⟩

/-- **A sequence is delivered.** Take a service with any configuration that renders sequences, after
any requests and any time. For parameters within its limits, the `GET` request whose query gives
their fields, in any order and written in any way that the form encoding allows, and whose content
type selects their format, is answered: with status 200, the content type of that format and no
other, and the sequence as the body. -/
theorem sequence_delivered {config : Config} {epoch : Duration} {traversal : Dict.Traversal RequestLabels Nat}
    {s₀ : Service} (h : start config renderer epoch traversal = .ok s₀) (events : List Event)
    (ids : Nat → ByteArray) {p : Params} (hp : p.Within config.limits) {fields : List (QueryField × String)} (hfields : fields.Perm p.fields)
    {query : List Char}
    (hquery : Text.Form.WritesPairs (fields.map fun f => (f.1.name.toList, f.2.toList)) query)
    {headers : List (String × ByteArray)} (hformat : (sequenceRequest query headers).format = p.format)
    (freshId : ByteArray) :
    ∃ response s, (s₀.after ids events).handle? freshId (sequenceRequest query headers) = some (response, s) ∧
      response.status = 200 ∧
      response.headers.filter (·.1 = "content-type") = [("content-type", p.format.contentType.toUTF8)] ∧
      response.body = p.render := by
  obtain ⟨hfaithful, hsettings⟩ := (Faithful.start h).1.after ids events
  rw [(Faithful.start h).2] at hsettings
  obtain ⟨hcompute, hlimits⟩ := Prod.mk.inj hsettings
  obtain ⟨q, hread, hq⟩ := Query.ofText_fields hfields hquery
  have hanswer := hfaithful.answerSequence (r := sequenceRequest query headers) (p := p)
    (by rw [target_sequenceRequest hquery.ne_hash]; exact hread)
    (by rw [hformat, hlimits]; exact Query.validate_fields hp hq) (by rw [hcompute]; rfl)
  obtain ⟨requestId, hhandle⟩ := handle?_sequenceRequest (s := s₀.after ids events) hquery.ne_hash headers freshId
  rw [hanswer] at hhandle
  refine ⟨_, _, hhandle, rfl, ?_, rfl⟩
  simp [Response.typed, commonHeaders, hformat]

/-- A query with its fields out of order, one of them left out, and characters to be escaped. -/
def scrambledQuery : List Char := "strTwo=%C3%A9&limit=2&nbTwo=2&strOne=a%2Bb%26".toList

/-- Asked a second time, after the refresh worker has run. -/
theorem sequence_delivered_default : ∃ s₀, Service.start {} renderer 0 .inserted = .ok s₀ ∧ ∀ ids freshId,
    ∃ response s, (s₀.after ids [.request (sequenceRequest scrambledQuery []), .advance 1, .work]).handle? freshId
        (sequenceRequest scrambledQuery []) = some (response, s) ∧
      response.status = 200 ∧ response.body = "1,é".toUTF8 := by
  obtain ⟨s₀, hstart⟩ : ∃ s₀, Service.start {} renderer 0 .inserted = .ok s₀ := ⟨_, rfl⟩
  have hfields : ((.strTwo, "é") :: [(.limit, "2"), (.nbTwo, "2"), (.strOne, "a+b&")] :
      List (QueryField × String)).Perm (Params.mk 2 0 2 "a+b&" "é" .text).fields :=
    (List.perm_append_singleton ..).symm
  have hformat : (sequenceRequest scrambledQuery []).format = .text := rfl
  refine ⟨s₀, hstart, fun ids freshId => ?_⟩
  obtain ⟨response, s, hhandle, hstatus, -, hbody⟩ := sequence_delivered hstart
    [.request (sequenceRequest scrambledQuery []), .advance 1, .work] ids (p := .mk 2 0 2 "a+b&" "é" .text)
    ⟨by decide, by decide, by decide, by decide, by decide⟩ hfields (.encode _) hformat freshId
  exact ⟨response, s, hhandle, hstatus, hbody.trans rfl⟩

end Service

end FizzService
