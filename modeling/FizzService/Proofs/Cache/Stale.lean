/-
Stale while revalidating. However many fetches of a key come while its entry
is expired, each is served from the entry at once; the first of them puts the
key in line for a refresh, unless it is being computed already, stands in line
already, or the line is full (`Stale.after`). The stores only note that the
key was used.

A key that is taken out of the line is let in again: it is off the line
(`not_mem_of_dequeues`) and stays off it until somebody looks it up
(`not_mem_line_after`), and a refresh that fails leaves its entry to be found
(`RefreshFails.keeps`).
-/
import FizzService.Proofs.Cache.Coalescing
import FizzService.Proofs.Cache.Fields
import FizzService.Proofs.Cache.Queue

namespace FizzService

/-! ## The look-up of a stale entry -/

namespace Stores

/-- From `s` to `t` an entry was used, and nothing else happened: its key is
the one that was used most recently, and no other key moved. -/
structure Used (k : String) (s t : Stores) : Prop where
  negatives : t.negatives = s.negatives
  entries : t.entries = { s.entries with recency := t.entries.recency }
  order : t.entries.recency.keys = s.entries.recency.keys.filter (· ≠ k) ++ [k]
  others : ∀ k' ≠ k, t.entries.recency.ticks.get? k' = s.entries.recency.ticks.get? k'

/-- The stores after the use of an entry. -/
def touched (s : Stores) (k : String) : Stores :=
  { s with entries := { s.entries with recency := s.entries.recency.touch k } }

variable {s t u : Stores} {k : String} {i : Item ByteArray}

theorem find_entry (h : s.entryAt k = some i) (now : Instant) :
    s.find now k = (.entry i.value (i.isExpired now), s.touched k) := by
  simp only [entryAt] at h
  simp only [find, Store.get, h]
  rfl

theorem used_touched (h : s.entries.recency.Sound) (k : String) : s.Used k (s.touched k) where
  negatives := rfl
  entries := rfl
  order := h.keys_touch k
  others _ hk := Dict.get?_insert_other _ _ hk

theorem Used.trans (h : s.Used k t) (h' : t.Used k u) : s.Used k u where
  negatives := h'.negatives.trans h.negatives
  entries := by rw [h'.entries, h.entries]
  order := by
    rw [h'.order, h.order, List.filter_append, List.filter_filter]
    simp
  others k' hk := (h'.others k' hk).trans (h.others k' hk)

end Stores

namespace ResponseCache

variable {c : ResponseCache} {key : CacheKey} {i : Item ByteArray}

theorem requestRefresh_inFlight (hk : key.text ∈ c.gate.inFlight) : c.requestRefresh key = c := by
  rw [requestRefresh, if_pos (Gate.isInFlight_iff.2 hk)]

theorem requestRefresh_refused (hk : key.text ∉ c.gate.inFlight) (hq : c.queue.Sound)
    (hr : c.queue.Refuses key) : c.requestRefresh key = c.count .refreshDropped := by
  rw [requestRefresh, if_neg (fun h => hk (Gate.isInFlight_iff.1 h)), hq.enqueue_refused hr]
  rfl

theorem requestRefresh_taken (hk : key.text ∉ c.gate.inFlight) (hq : c.queue.Sound)
    (hr : ¬ c.queue.Refuses key) :
    c.requestRefresh key = { c with queue := c.queue.push key }.count .refreshEnqueued := by
  rw [requestRefresh, if_neg (fun h => hk (Gate.isInFlight_iff.1 h)), hq.enqueue_taken hr]
  rfl

theorem lookup_stale {now : Instant} (h : c.stores.entryAt key.text = some i) (hx : i.isExpired now = true) :
    c.lookup now key = (.served i.value,
      ({ c with stores := c.stores.touched key.text }.count .staleHit).requestRefresh key) := by
  simp only [lookup, Stores.find_entry h, hx]

end ResponseCache

namespace Session

variable {key : CacheKey} {i : Item ByteArray} {s t : Session}

/-! ## Fetches of a stale entry -/

/-- What the caller of each step hears, and what the fetches that go on come to. -/
def heard (s : Session) : List Step → List (Reply × List (CallId × Progress))
  | [] => []
  | t :: run => ((s.step t.action t.settled).1, (s.step t.action t.settled).2.1) :: (s.next t).heard run

/-- A step in which a key is fetched, in whatever way. -/
inductive Fetches (key : CacheKey) : Step → Prop
  | fetch (id : CallId) (compute : Compute) (hold settled : Bool) :
    Fetches key ⟨.fetch id key.params compute hold, settled⟩

/-- The entry of a key is expired, and nobody waits for a key that is free. -/
structure Stale (key : CacheKey) (i : Item ByteArray) (s : Session) : Prop where
  orderly : s.Orderly
  owned : s.Owned
  attended : s.Attended
  queue : s.cache.queue.Sound
  entry : s.cache.stores.entryAt key.text = some i
  expired : i.isExpired s.now = true

theorem Owned.ready_of_attended (h : s.Owned) (ha : s.Attended) : s.ready = [] :=
  List.eq_nil_iff_forall_not_mem.2 fun f hf =>
    (h.mem_ready.1 hf).2 (ha f (h.mem_ready.1 hf).1).2

/-- The cache after one more fetch of a stale entry. -/
def servedStale (s : Session) (key : CacheKey) : ResponseCache :=
  ({ s.cache with stores := s.cache.stores.touched key.text }.count .staleHit).requestRefresh key

theorem Stale.perform (h : s.Stale key i) (id : CallId) (compute : Compute) (hold : Bool) :
    s.perform (.fetch id key.params compute hold) =
      (.call (.done (.body i.value)), { s with cache := s.servedStale key }) := by
  have hl := ResponseCache.lookup_stale h.entry h.expired
  have hfetch := fetch_served s id key compute hold (by rw [hl])
  simp only [Session.perform, CacheKey.ofParams_params, hfetch, hl]
  rfl

theorem servedStale_keeps (s : Session) (key : CacheKey) :
    (s.servedStale key).stores = s.cache.stores.touched key.text ∧ (s.servedStale key).gate = s.cache.gate :=
  ⟨(ResponseCache.requestRefresh_keeps _ key).1, (ResponseCache.requestRefresh_keeps _ key).2.1⟩

/-- A fetch of a stale entry is served at once, and lets nobody else go on. -/
theorem Stale.step (h : s.Stale key i) {t : Step} (ht : Fetches key t) :
    s.step t.action t.settled = (.call (.done (.body i.value)), [], s.next t) ∧ s.stepCalls t = [] ∧
      (s.next t).cache = s.servedStale key ∧ (s.next t).now = s.now ∧ (s.next t).Attended := by
  obtain ⟨id, compute, hold, settled⟩ := ht
  have howned := h.owned.moves (s.perform_performed (.fetch id key.params compute hold)).moves
  have hperform := h.perform id compute hold
  have hattended : (s.perform (.fetch id key.params compute hold)).2.Attended := by
    rw [hperform]
    intro f hf
    rw [(s.servedStale_keeps key).2]
    exact h.attended f hf
  have hready := howned.ready_of_attended hattended
  have hsettle := settle_of_ready hready
  have hcalls : s.calls (.fetch id key.params compute hold) = [] := by
    have henter := s.cache.enter_eq s.now key
    rw [ResponseCache.lookup_stale h.entry h.expired] at henter
    simp only [calls, CacheKey.ofParams_params, henter]
  refine ⟨?_, ?_, ?_, ?_, ?_⟩
  · refine Prod.ext ?_ (Prod.ext ?_ rfl)
    · rw [step_fst, hperform]
    · rw [step_events, hsettle, ite_self]
  · rw [stepCalls, hcalls, hready]
    exact ite_self _
  · rw [next_eq, hsettle, hperform]
    cases settled <;> rfl
  · rw [next_eq, hsettle, hperform]
    cases settled <;> rfl
  · rw [next_eq]
    split
    · exact howned.attended_settle
    · exact hattended

theorem Stale.next (h : s.Stale key i) {t : Step} (ht : Fetches key t) : (s.next t).Stale key i := by
  obtain ⟨-, -, hcache, hnow, hattended⟩ := h.step ht
  refine ⟨h.orderly.next t, h.owned.next t, hattended, ?_, ?_, hnow ▸ h.expired⟩
  · rw [hcache, servedStale, ResponseCache.queue_requestRefresh]
    split
    · exact h.queue
    · exact h.queue.enqueue key
  · rw [hcache, (s.servedStale_keeps key).1]
    exact h.entry

/-- **Fetches of a stale entry**, however many: all are served at once, and no
compute function is called. -/
theorem Stale.after {run : List Step} (h : s.Stale key i) (hrun : ∀ t ∈ run, Fetches key t) :
    s.heard run = run.map (fun _ => (.call (.done (.body i.value)), [])) ∧ s.runCalls run = [] ∧
      (s.after run).Stale key i ∧ (s.after run).now = s.now ∧
      (s.after run).cache.gate = s.cache.gate := by
  induction run generalizing s with
  | nil => exact ⟨rfl, rfl, h, rfl, rfl⟩
  | cons t run ih =>
    obtain ⟨hstep, hcalls, hcache, hnow, -⟩ := h.step (hrun t (.head _))
    obtain ⟨hheard, hnone, hstale, hnow', hgate⟩ := ih (h.next (hrun t (.head _))) fun t' ht' => hrun t' (.tail _ ht')
    refine ⟨?_, ?_, hstale, hnow'.trans hnow, ?_⟩
    · rw [heard, hstep, hheard]
      rfl
    · rw [runCalls, hcalls, hnone]
      rfl
    · rw [← (s.servedStale_keeps key).2, ← hcache]
      exact hgate

/-- The stores note the use of the key, and nothing else. -/
theorem Stale.used_after {run : List Step} (h : s.Stale key i) (hrun : ∀ t ∈ run, Fetches key t)
    (hne : run ≠ []) : s.cache.stores.Used key.text (s.after run).cache.stores := by
  induction run generalizing s with
  | nil => exact (hne rfl).elim
  | cons t run ih =>
    have hused : s.cache.stores.Used key.text (s.next t).cache.stores := by
      obtain ⟨-, -, hcache, -⟩ := h.step (hrun t (.head _))
      rw [hcache, (s.servedStale_keeps key).1]
      exact Stores.used_touched h.orderly.stores.entries.recency key.text
    cases run with
    | nil => exact hused
    | cons t' run =>
      exact hused.trans (ih (h.next (hrun t (.head _))) (fun u hu => hrun u (.tail _ hu)) (List.cons_ne_nil _ _))

/-- While the line does not take the key, a fetch only counts: a stale hit, and
what is counted when the refresh is asked for. -/
theorem Stale.untaken_after {run : List Step} (h : s.Stale key i) (hrun : ∀ t ∈ run, Fetches key t)
    (dropped : Nat) (huntaken : ∀ c : ResponseCache, c.gate = s.cache.gate → c.queue = s.cache.queue →
      c.requestRefresh key =
        { c with counters := { c.counters with refreshDropped := c.counters.refreshDropped + dropped } }) :
    (s.after run).cache.queue = s.cache.queue ∧ (s.after run).cache.counters =
      { s.cache.counters with
        staleHits := s.cache.counters.staleHits + run.length
        refreshDropped := s.cache.counters.refreshDropped + dropped * run.length } := by
  induction run generalizing s with
  | nil => exact ⟨rfl, rfl⟩
  | cons t run ih =>
    obtain ⟨-, -, hcache, -⟩ := h.step (hrun t (.head _))
    replace hcache := hcache.trans (huntaken _ rfl rfl)
    obtain ⟨hqueue, hcounters⟩ := ih (h.next (hrun t (.head _))) (fun u hu => hrun u (.tail _ hu))
      (by rw [hcache]; exact huntaken)
    rw [hcache] at hqueue hcounters
    refine ⟨hqueue, hcounters.trans ?_⟩
    rw [List.length_cons, Nat.mul_succ, Nat.add_comm run.length, Nat.add_comm (dropped * _), ← Nat.add_assoc,
      ← Nat.add_assoc]
    rfl

/-- Nobody asks for the refresh of a key that is being computed. -/
theorem Stale.inFlight_after {run : List Step} (h : s.Stale key i) (hrun : ∀ t ∈ run, Fetches key t)
    (hk : key.text ∈ s.cache.gate.inFlight) :
    (s.after run).cache.queue = s.cache.queue ∧ (s.after run).cache.counters =
      { s.cache.counters with staleHits := s.cache.counters.staleHits + run.length } := by
  have hafter := h.untaken_after hrun 0 fun c hgate _ =>
    ResponseCache.requestRefresh_inFlight (hgate ▸ hk)
  rwa [Nat.zero_mul] at hafter

/-- A key that stands in line already or finds it full is turned away each time. -/
theorem Stale.refused_after {run : List Step} (h : s.Stale key i) (hrun : ∀ t ∈ run, Fetches key t)
    (hk : key.text ∉ s.cache.gate.inFlight) (hr : s.cache.queue.Refuses key) :
    (s.after run).cache.queue = s.cache.queue ∧ (s.after run).cache.counters =
      { s.cache.counters with
        staleHits := s.cache.counters.staleHits + run.length
        refreshDropped := s.cache.counters.refreshDropped + run.length } := by
  have hafter := h.untaken_after hrun 1 fun c hgate hqueue =>
    ResponseCache.requestRefresh_refused (hgate ▸ hk) (hqueue ▸ h.queue) (hqueue ▸ hr)
  rwa [Nat.one_mul] at hafter

/-- A key that is let into the line comes in once. -/
theorem Stale.taken_after {run : List Step} (h : s.Stale key i) (hrun : ∀ t ∈ run, Fetches key t)
    (hne : run ≠ []) (hk : key.text ∉ s.cache.gate.inFlight) (hr : ¬ s.cache.queue.Refuses key) :
    (s.after run).cache.queue = s.cache.queue.push key ∧ (s.after run).cache.counters =
      { s.cache.counters with
        staleHits := s.cache.counters.staleHits + run.length
        refreshEnqueued := s.cache.counters.refreshEnqueued + 1
        refreshDropped := s.cache.counters.refreshDropped + (run.length - 1) } := by
  cases run with
  | nil => exact (hne rfl).elim
  | cons t run =>
    obtain ⟨-, -, hcache, -⟩ := h.step (hrun t (.head _))
    replace hcache := hcache.trans (ResponseCache.requestRefresh_taken hk h.queue hr)
    -- From now on it stands in line.
    have hmem : (s.next t).cache.queue.Refuses key := by
      rw [hcache]
      exact .inl (List.mem_append_right _ (.head _))
    obtain ⟨hqueue, hcounters⟩ := (h.next (hrun t (.head _))).refused_after
      (fun u hu => hrun u (.tail _ hu)) (by rw [hcache]; exact hk) hmem
    rw [hcache] at hqueue hcounters
    refine ⟨hqueue, hcounters.trans ?_⟩
    rw [List.length_cons, Nat.add_comm run.length, ← Nat.add_assoc, Nat.add_sub_cancel_left]
    rfl

/-! ## Out of the line, and in again -/

/-- An action that takes a key out of the line. -/
def Dequeues (key : CacheKey) (s : Session) : Action → Prop
  | .nextRefresh => s.cache.queue.line.head? = some key
  | .work _ => key ∈ s.cache.queue.line
  | _ => False

theorem not_mem_of_dequeues {a : Action} (hq : s.cache.queue.Sound) (howned : s.Owned) (ha : s.Attended)
    (hd : s.Dequeues key a) (settled : Bool) : key ∉ (s.next ⟨a, settled⟩).cache.queue.line := by
  have hunnamed : a.params? = none ∧ ∀ id, a ≠ .finish id := by
    cases a <;> first | exact hd.elim | exact ⟨rfl, nofun⟩
  have hperform : key ∉ (s.perform a).2.cache.queue.line := by
    rw [queue_perform]
    cases a with
    | nextRefresh =>
      have hnodup := hq.nodup
      obtain ⟨rest, hline⟩ := List.head?_eq_some_iff.1 hd
      rw [hline, List.nodup_cons] at hnodup
      simpa [hline] using hnodup.1
    | work compute =>
      rw [ResponseCache.line_work]
      exact List.not_mem_nil
    | _ => exact hd.elim
  have hready := (howned.moves (s.perform_performed a).moves).ready_of_attended
    (ha.perform hunnamed.1 hunnamed.2)
  rw [next_eq, settle_of_ready hready]
  cases settled <;> exact hperform

/-- A refresh of a key that comes to nothing: at once, when it has been held
open, or in a round of the worker. -/
inductive RefreshFails (key : CacheKey) (s : Session) : Action → Prop
  | once (id : CallId) (compute : Compute) (free : key.text ∉ s.cache.gate.inFlight)
    (fails : ∀ body, compute key.params ≠ .body body) :
    RefreshFails key s (.refresh id key.params compute false)
  | held (id : CallId) (compute : Compute) (abandoned : Bool)
    (found : s.running.find? (·.id = id) = some ⟨id, key, compute, .refresh, abandoned⟩)
    (fails : ∀ body, compute key.params ≠ .body body) : RefreshFails key s (.finish id)
  | work (compute : Compute) (queued : key ∈ s.cache.queue.line) (free : key.text ∉ s.cache.gate.inFlight)
    (fails : ∀ body, compute key.params ≠ .body body) : RefreshFails key s (.work compute)

/-- The worker files nothing for a key whose computation fails. -/
theorem not_renews_roundsWrites {now : Instant} {compute : Compute} {c : ResponseCache}
    (fails : ∀ body, compute key.params ≠ .body body) (n : Nat) :
    ∀ access ∈ ResponseCache.roundsWrites now compute n c, ¬ access.Renews key := by
  intro access ha
  rw [ResponseCache.roundsWrites_eq, List.mem_flatMap] at ha
  obtain ⟨⟨key', compute'⟩, hcall, hwrite⟩ := ha
  obtain ⟨-, -, -, rfl⟩ := ResponseCache.mem_roundsCalls.1 hcall
  by_cases hkey : key' = key
  · rw [hkey, Role.writes_of_fails fails] at hwrite
    cases hwrite
  · exact not_renews_writes hkey access hwrite

theorem RefreshFails.accesses {a : Action} (h : s.RefreshFails key a) :
    (∀ access ∈ s.accesses a, ¬ access.Renews key) ∧ ((∀ compute, a ≠ .work compute) → s.accesses a = []) := by
  cases h with
  | once id compute free fails =>
    have hnone : s.accesses (.refresh id key.params compute false) = [] := by
      simp only [Session.accesses, CacheKey.ofParams_params, Role.writes_of_fails fails, ite_self]
    exact ⟨fun access ha => (List.not_mem_nil (hnone ▸ ha)).elim, fun _ => hnone⟩
  | held id compute abandoned found fails =>
    have hnone : s.accesses (.finish id) = [] := by
      simp only [Session.accesses, found, Role.writes_of_fails fails]
    exact ⟨fun access ha => (List.not_mem_nil (hnone ▸ ha)).elim, fun _ => hnone⟩
  | work compute queued free fails =>
    refine ⟨?_, fun hne => (hne compute rfl).elim⟩
    exact not_renews_roundsWrites fails s.cache.queue.line.length

theorem RefreshFails.free {a : Action} (h : s.RefreshFails key a) :
    key.text ∉ (s.perform a).2.cache.gate.inFlight := by
  have hmoves := (s.perform_performed a).moves
  cases h with
  | once id compute free fails =>
    have hrunning := s.running_perform (.refresh id key.params compute false)
    generalize (s.perform (.refresh id key.params compute false)).2 = t at hmoves hrunning ⊢
    cases hmoves with
    | passes _ inFlight => rwa [inFlight]
    | opens _ job _ _ _ running =>
      -- It is not held, so nothing is left open.
      simp [running] at hrunning
    | waits _ f _ _ _ gate => rwa [gate]
  | held id compute abandoned found fails =>
    simp only [perform, finish_found s id found]
    rw [ResponseCache.gate_finish]
    simp [Purpose.role, Gate.release]
  | work compute queued free fails =>
    generalize (s.perform (.work compute)).2 = t at hmoves ⊢
    cases hmoves with
    | passes _ inFlight => rwa [inFlight]
    | opens _ _ named => cases named
    | waits _ _ named => cases named

/-- **A refresh that fails leaves its key as it was**, and free: what is on
record for it was there before, and only the worker, which files the bodies of
other keys, can make it leave. -/
theorem RefreshFails.keeps {a : Action} (h : s.RefreshFails key a) (settled : Bool) :
    (s.next ⟨a, settled⟩).now = s.now ∧ key.text ∉ (s.next ⟨a, settled⟩).cache.gate.inFlight ∧
      (s.next ⟨a, settled⟩).cache.stores.WithinAt s.cache.stores key.text ∧
      ((∀ compute, a ≠ .work compute) →
        (s.next ⟨a, settled⟩).cache.stores.entryAt key.text = s.cache.stores.entryAt key.text) := by
  obtain ⟨hother, hnone⟩ := h.accesses
  have hfinds : ∀ fs : List WaitingFetch, fs.map (fun f => Access.find f.key) = (fs.map (·.key)).map .find :=
    fun fs => by rw [List.map_map]; rfl
  refine ⟨?_, ?_, ?_, fun hwork => ?_⟩
  · have hnow : (s.perform a).2.now = s.now := by
      rw [now_perform]
      cases h <;> rfl
    rw [next_eq]
    split
    · rw [now_settle, hnow]
    · exact hnow
  · rw [next_eq]
    split
    · rw [gate_settle]
      exact h.free
    · exact h.free
  · rw [stores_next]
    refine Stores.replay_other fun access ha => ?_
    rw [stepAccesses, List.mem_append] at ha
    rcases ha with ha | ha
    · exact hother access ha
    · split at ha
      · obtain ⟨f, -, rfl⟩ := List.mem_map.1 ha
        exact fun hf => hf
      · cases ha
  · rw [stores_next, stepAccesses, hnone hwork, List.nil_append]
    split
    · rw [hfinds]
      exact Stores.entryAt_replay_find _
    · rfl

/-! ## Over settled runs -/

variable {config : CacheConfig}

theorem Settled.after (h : s.Settled config) {run : List Step} (hrun : ∀ t ∈ run, t.settled = true) :
    (s.after run).Settled config := by
  obtain ⟨s₀, run₀, hnew, hsettled, rfl⟩ := h
  refine ⟨s₀, run₀ ++ run, hnew, fun t ht => ?_, (after_append ..).symm⟩
  exact (List.mem_append.1 ht).elim (hsettled t) (hrun t)

theorem Settled.sound_queue (h : s.Settled config) : s.cache.queue.Sound := by
  obtain ⟨s₀, run₀, hnew, -, rfl⟩ := h
  exact ((LineFor.new hnew).after run₀).1

theorem Settled.stale (h : s.Settled config) (hi : s.cache.stores.entryAt key.text = some i)
    (hx : i.isExpired s.now = true) : s.Stale key i :=
  ⟨h.holds.1, h.holds.2.1, h.holds.2.2.1, h.sound_queue, hi, hx⟩

/-- A stale fetch finds its key in line, or puts it there. -/
theorem Stale.mem_line_next (h : s.Stale key i) {t : Step} (ht : Fetches key t)
    (hk : key.text ∉ s.cache.gate.inFlight) (hroom : s.cache.queue.line.length < s.cache.queue.capacity) :
    key ∈ (s.next t).cache.queue.line := by
  have hone : ∀ u ∈ [t], Fetches key u := fun u hu => List.mem_singleton.1 hu ▸ ht
  by_cases hr : s.cache.queue.Refuses key
  · have hqueue := (h.refused_after hone hk hr).1
    change key ∈ (s.after [t]).cache.queue.line
    rw [hqueue]
    exact hr.resolve_right (Nat.not_le.2 hroom)
  · have hqueue := (h.taken_after hone (List.cons_ne_nil _ _) hk hr).1
    change key ∈ (s.after [t]).cache.queue.line
    rw [hqueue]
    exact List.mem_append_right _ (.head _)

/-- **Stale while revalidating.** Fetches of a key whose entry is expired, one
or more, are all served from it at once; they call no compute function, and
only the recency of the key changes in the stores. If the key is in flight,
nobody asks for its refresh. If it is not, it comes to the end of the line
once; unless it stands there already or the line is full, when every one of the
fetches is turned away. A key that is taken out of the line is off it until it
is looked up, so that the next stale fetch puts it in line again; and a refresh
that fails leaves the entry to be found and the key free. -/
theorem stale_while_revalidate (h : s.Settled config) (key : CacheKey) :
    (∀ i, s.cache.stores.entryAt key.text = some i → i.isExpired s.now = true →
      ∀ run : List Step, run ≠ [] → (∀ t ∈ run, Fetches key t) →
        s.heard run = run.map (fun _ => (.call (.done (.body i.value)), [])) ∧ s.runCalls run = [] ∧
        s.cache.stores.Used key.text (s.after run).cache.stores ∧
        (key.text ∈ s.cache.gate.inFlight →
          (s.after run).cache.queue = s.cache.queue ∧ (s.after run).cache.counters =
            { s.cache.counters with staleHits := s.cache.counters.staleHits + run.length }) ∧
        (key.text ∉ s.cache.gate.inFlight → key ∉ s.cache.queue.line →
          s.cache.queue.line.length < s.cache.queue.capacity →
          (s.after run).cache.queue = s.cache.queue.push key ∧ (s.after run).cache.counters =
            { s.cache.counters with
              staleHits := s.cache.counters.staleHits + run.length
              refreshEnqueued := s.cache.counters.refreshEnqueued + 1
              refreshDropped := s.cache.counters.refreshDropped + (run.length - 1) }) ∧
        (key.text ∉ s.cache.gate.inFlight →
          key ∈ s.cache.queue.line ∨ s.cache.queue.capacity ≤ s.cache.queue.line.length →
          (s.after run).cache.queue = s.cache.queue ∧ (s.after run).cache.counters =
            { s.cache.counters with
              staleHits := s.cache.counters.staleHits + run.length
              refreshDropped := s.cache.counters.refreshDropped + run.length })) ∧
    (∀ a, s.Dequeues key a → key ∉ (s.next ⟨a, true⟩).cache.queue.line ∧
      ∀ between u, (∀ t ∈ between, t.settled = true) → u = (s.next ⟨a, true⟩).after between →
        ∀ i, u.cache.stores.entryAt key.text = some i → i.isExpired u.now = true →
          key.text ∉ u.cache.gate.inFlight → u.cache.queue.line.length < u.cache.queue.capacity →
          ∀ t, Fetches key t → key ∈ (u.next t).cache.queue.line ∧
            (.find key ∉ (s.next ⟨a, true⟩).history between →
              (u.next t).cache.queue = u.cache.queue.push key ∧
              (u.next t).cache.counters.refreshEnqueued = u.cache.counters.refreshEnqueued + 1)) ∧
    (∀ a, s.RefreshFails key a → (s.next ⟨a, true⟩).now = s.now ∧
      key.text ∉ (s.next ⟨a, true⟩).cache.gate.inFlight ∧
      (s.next ⟨a, true⟩).cache.stores.WithinAt s.cache.stores key.text ∧
      ((∀ compute, a ≠ .work compute) →
        (s.next ⟨a, true⟩).cache.stores.entryAt key.text = s.cache.stores.entryAt key.text)) := by
  obtain ⟨-, howned, hattended, -⟩ := h.holds
  refine ⟨fun i hi hx run hne hrun => ?_, fun a hd => ?_, fun a hf => hf.keeps true⟩
  · have hstale := h.stale hi hx
    obtain ⟨hheard, hcalls, -⟩ := hstale.after hrun
    exact ⟨hheard, hcalls, hstale.used_after hrun hne, hstale.inFlight_after hrun,
      fun hk hm hroom => hstale.taken_after hrun hne hk (not_or.2 ⟨hm, Nat.not_le.2 hroom⟩),
      hstale.refused_after hrun⟩
  · have hoff := not_mem_of_dequeues h.sound_queue howned hattended hd true
    refine ⟨hoff, ?_⟩
    rintro between u hbetween rfl i hi hx hk hroom t ht
    have hfirst : ∀ t ∈ [(⟨a, true⟩ : Step)], t.settled = true :=
      fun t ht => by rw [List.mem_singleton.1 ht]
    have hnext : (s.next ⟨a, true⟩).Settled config := h.after hfirst
    have hstale := (hnext.after hbetween).stale hi hx
    refine ⟨hstale.mem_line_next ht hk hroom, fun hunseen => ?_⟩
    have hm := not_mem_line_after hoff hunseen
    have hone : ∀ u ∈ [t], Fetches key u := fun u hu => List.mem_singleton.1 hu ▸ ht
    obtain ⟨hqueue, hcounters⟩ := hstale.taken_after hone (List.cons_ne_nil _ _) hk
      (not_or.2 ⟨hm, Nat.not_le.2 hroom⟩)
    exact ⟨hqueue, congrArg Counters.refreshEnqueued hcounters⟩

/-- A body of one byte expires. Two fetches are served from it, and one of
them puts its key in line; it is taken out, its refresh crashes, and the next
fetch puts it in line again. -/
theorem stale_while_revalidate_small :
    let s := small.after [⟨.set default ⟨#[7]⟩, true⟩, ⟨.advance (.ofSeconds 60), true⟩]
    let fetch : Step := ⟨.fetch "a" default (fun _ => .crash) false, true⟩
    let refresh : Action := .refresh "b" default (fun _ => .crash) false
    let dequeued := (s.after [fetch]).next ⟨.nextRefresh, true⟩
    s.Settled .small ∧
    s.heard [fetch, fetch] =
      [(.call (.done (.body ⟨#[7]⟩)), []), (.call (.done (.body ⟨#[7]⟩)), [])] ∧
    (s.after [fetch, fetch]).cache.queue = s.cache.queue.push (.ofParams default) ∧
    (dequeued.next ⟨refresh, true⟩).cache.stores.entryAt (CacheKey.ofParams default).text =
      dequeued.cache.stores.entryAt (CacheKey.ofParams default).text ∧
    ((dequeued.after [⟨refresh, true⟩]).next fetch).cache.queue =
      (dequeued.after [⟨refresh, true⟩]).cache.queue.push (.ofParams default) := by
  intro s fetch refresh dequeued
  have hsettled : s.Settled .small := ⟨small, _, new_small, by simp, rfl⟩
  have hfetch : Fetches (.ofParams default) fetch := .fetch "a" (fun _ => .crash) false true
  have hfree : ∀ t : Session, t.cache.gate.inFlight = [] →
      (CacheKey.ofParams default).text ∉ t.cache.gate.inFlight := fun t h => by rw [h]; exact List.not_mem_nil
  have htwo := (stale_while_revalidate hsettled (.ofParams default)).1 ⟨⟨#[7]⟩, Duration.ofSeconds 60⟩ rfl rfl
    [fetch, fetch] (by simp) (by simp [hfetch])
  have hqueued : (s.after [fetch]).Settled .small := hsettled.after (by simp [fetch])
  have hagain := (stale_while_revalidate hqueued (.ofParams default)).2.1 .nextRefresh rfl
  have hunseen : dequeued.history [⟨refresh, true⟩] = [] := rfl
  have hline := (hagain.2 [⟨refresh, true⟩] _ (by simp) rfl ⟨⟨#[7]⟩, Duration.ofSeconds 60⟩ rfl rfl
    (hfree _ rfl) (by decide) fetch hfetch).2 (by rw [hunseen]; exact List.not_mem_nil)
  have hdequeued : dequeued.Settled .small := 
    hqueued.after fun t (ht : t ∈ [(⟨.nextRefresh, true⟩ : Step)]) => by rw [List.mem_singleton.1 ht]
  have hfails := (stale_while_revalidate hdequeued (.ofParams default)).2.2 refresh
    (.once "b" (fun _ => .crash) (hfree dequeued rfl) nofun)
  have hempty : s.cache.queue.line = [] := rfl
  exact ⟨hsettled, htwo.1, (htwo.2.2.2.2.1 (hfree s rfl) (by rw [hempty]; exact List.not_mem_nil) (by decide)).1,
    hfails.2.2.2 (by simp [refresh]), hline.1⟩

end Session

end FizzService
