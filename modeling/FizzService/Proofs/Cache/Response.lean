/-
What each atomic step of the cache does to its stores, its gate and the count
of its computations. A look-up reads the stores and leaves the gate alone; to
begin a fetch is a look-up, and takes the key if nothing is on record and
nobody owns it, where the second look-up of the new owner is idle
(`lookAgain_of_absent`); the end of an owner's computation writes its body, if
it has one, and gives the key back in any case.

`stores_workRounds` and `gate_workRounds`: the refresh worker writes the
bodies it computes, key by key, and leaves the registry as it found it.
`new_eq_ok`: what a cache is when it has just been built, and from which
configurations it is.
-/
import FizzService.Cache.Response
import FizzService.Proofs.Cache.Access
import FizzService.Proofs.Gate

namespace FizzService

/-- What a fetch makes of what is on record. -/
def Finding.outcome : Finding → Lookup
  | .entry body _ => .served body
  | .negative .empty => .served Negative.empty.payload
  | .negative (.oversized _) => .bypass
  | .nothing => .missing

/-- What the end of a computation writes. -/
def Role.writes (role : Role) (key : CacheKey) (outcome : Outcome) : List Access :=
  match role, outcome with
  | .owner, .body body => [.put key body]
  | _, _ => []

theorem Role.writes_of_fails {role : Role} {key : CacheKey} {outcome : Outcome}
    (fails : ∀ body, outcome ≠ .body body) : role.writes key outcome = [] := by
  cases outcome with
  | body body => exact (fails body rfl).elim
  | failure | crash => cases role <;> rfl

/-! ## The start -/

/-- A configuration is accepted if nothing is zero that must not be. -/
theorem CacheConfig.validated_eq_ok {config accepted : CacheConfig} : config.validated = .ok accepted ↔
    (∀ setting, config.isZero setting = false) ∧ accepted = config.clamped := by
  unfold validated
  cases hz : PositiveSetting.all.find? config.isZero with
  | some setting =>
    have hzero := List.find?_some hz
    refine ⟨fun h => (by cases h), fun h => ?_⟩
    rw [h.1 setting] at hzero
    cases hzero
  | none =>
    have hpositive : ∀ setting, config.isZero setting = false := fun setting => by
      simpa using List.find?_eq_none.1 hz setting (by cases setting <;> decide)
    simp only [Except.ok.injEq, hpositive, implies_true, true_and]
    exact eq_comm

namespace ResponseCache

/-- A cache is built of the settings inside their bounds, and is empty. -/
theorem new_eq_ok {config : CacheConfig} {c : ResponseCache} : ResponseCache.new config = .ok c ↔
    (∀ setting, config.isZero setting = false) ∧
    ∃ queue, RefreshQueue.new? config.refreshQueueCapacity.toNat = some queue ∧ c = {
      config := config.clamped
      stores := {
        entries := emptyStore config.clamped config.clamped.entryMaxSize config.clamped.entryTtl
        negatives := emptyStore config.clamped config.clamped.negativeMaxSize config.clamped.negativeTtl }
      gate := .empty
      queue := queue
      counters := {} } := by
  unfold ResponseCache.new
  constructor
  · intro h
    cases hv : config.validated with
    | error e => rw [hv] at h; cases h
    | ok accepted =>
      obtain ⟨hpositive, rfl⟩ := CacheConfig.validated_eq_ok.1 hv
      rw [hv] at h
      cases hq : RefreshQueue.new? config.refreshQueueCapacity.toNat with
      | none => simp only [CacheConfig.clamped, hq] at h; cases h
      | some queue =>
        simp only [CacheConfig.clamped, hq] at h
        cases h
        exact ⟨hpositive, queue, rfl, rfl⟩
  · rintro ⟨hpositive, queue, hq, rfl⟩
    rw [CacheConfig.validated_eq_ok.2 ⟨hpositive, rfl⟩]
    simp only [CacheConfig.clamped, hq]

variable (c : ResponseCache) (now : Instant) (key : CacheKey)

@[simp] theorem gate_count (e : CacheEvent) : (c.count e).gate = c.gate := rfl

/-! ## Looking up -/

theorem lookup_fst : (c.lookup now key).1 = (c.stores.find now key.text).1.outcome := by
  unfold lookup
  rcases c.stores.find now key.text with ⟨f, s⟩
  cases f with
  | entry body expired => cases expired <;> rfl
  | negative record => cases record <;> rfl
  | nothing => rfl

theorem requestRefresh_keeps : (c.requestRefresh key).stores = c.stores ∧
    (c.requestRefresh key).gate = c.gate ∧ (c.requestRefresh key).config = c.config ∧
    (c.requestRefresh key).counters.computations = c.counters.computations := by
  unfold requestRefresh
  split
  · exact ⟨rfl, rfl, rfl, rfl⟩
  · rcases c.queue.enqueue key with ⟨queued, queue⟩
    cases queued <;> exact ⟨rfl, rfl, rfl, rfl⟩

theorem lookup_keeps : (c.lookup now key).2.stores = (c.stores.find now key.text).2 ∧
    (c.lookup now key).2.gate = c.gate ∧ (c.lookup now key).2.config = c.config ∧
    (c.lookup now key).2.counters.computations = c.counters.computations := by
  unfold lookup
  rcases c.stores.find now key.text with ⟨f, s⟩
  cases f with
  | entry body expired =>
    cases expired with
    | false => exact ⟨rfl, rfl, rfl, rfl⟩
    | true => exact requestRefresh_keeps _ key
  | negative record => cases record <;> exact ⟨rfl, rfl, rfl, rfl⟩
  | nothing => exact ⟨rfl, rfl, rfl, rfl⟩

@[simp] theorem stores_lookup : (c.lookup now key).2.stores = (c.stores.find now key.text).2 :=
  (c.lookup_keeps now key).1

@[simp] theorem gate_lookup : (c.lookup now key).2.gate = c.gate := (c.lookup_keeps now key).2.1

@[simp] theorem config_lookup : (c.lookup now key).2.config = c.config :=
  (c.lookup_keeps now key).2.2.1

@[simp] theorem computations_lookup :
    (c.lookup now key).2.counters.computations = c.counters.computations :=
  (c.lookup_keeps now key).2.2.2

/-- A look-up that serves a body found it on record, and it is none of an
oversized result. -/
theorem holds_of_lookup {body : ByteArray} (h : (c.lookup now key).1 = .served body) :
    c.stores.Holds key.text body := by
  rw [lookup_fst, Stores.find_fst] at h
  cases he : c.stores.entryAt key.text with
  | some i =>
    simp only [he, Finding.outcome, Lookup.served.injEq] at h
    exact .inl ⟨i, he, h⟩
  | none =>
    cases hn : c.stores.negativeAt key.text with
    | none => simp only [he, hn] at h; cases h
    | some i =>
      simp only [he, hn] at h
      split at h
      · cases h
      · match hv : i.value with
        | .empty =>
          simp only [hv, Finding.outcome, Lookup.served.injEq] at h
          exact .inr ⟨i, hn, hv, h.symm⟩
        | .oversized _ => rw [hv] at h; cases h

/-- A look-up that finds nothing leaves nothing on record for its key. -/
theorem absent_of_lookup (h : (c.lookup now key).1 = .missing) : (c.lookup now key).2.stores.Absent key.text := by
  rw [stores_lookup]
  rw [lookup_fst] at h
  refine Stores.absent_find ?_
  cases hf : (c.stores.find now key.text).1 with
  | nothing => rfl
  | entry body expired =>
    rw [hf] at h
    cases h
  | negative record =>
    rw [hf] at h
    cases record <;> cases h

/-! ## Beginning a fetch or a refresh -/

/-- **The second look-up of a new owner** finds nothing and changes nothing, as
long as nobody writes between it and the first. -/
theorem lookAgain_of_absent (h : c.stores.Absent key.text) : c.lookAgain now key = (.owner, c) := by
  have hlookup : c.lookup now key = (.missing, c) := by
    rw [lookup, h.find_eq now]
  rw [lookAgain, hlookup]

/-- How a fetch begins: by what it looks up and by who owns its key. -/
theorem enter_eq : c.enter now key =
    match (c.lookup now key).1 with
    | .served body => (.served body, (c.lookup now key).2)
    | .bypass => (.alone, (c.lookup now key).2)
    | .missing =>
      if c.gate.isInFlight key.text then
        (.waits, ((c.lookup now key).2.count .miss).count .coalescedWait)
      else (.owner, { (c.lookup now key).2.count .miss with
        gate := ⟨c.gate.inFlight ++ [key.text], c.gate.broadcasts⟩ }) := by
  have hg := c.gate_lookup now key
  have habsent := c.absent_of_lookup now key
  unfold enter
  rcases hl : c.lookup now key with ⟨found, c'⟩
  rw [hl] at hg habsent
  simp only at hg habsent
  cases found with
  | served body => rfl
  | bypass => rfl
  | missing =>
    simp only
    by_cases hk : c.gate.isInFlight key.text = true
    · have ha : (c'.count .miss).gate.acquire? key.text = none := by
        rw [Gate.acquire?_eq_none]
        change key.text ∈ c'.gate.inFlight
        rw [hg]
        exact Gate.isInFlight_iff.1 hk
      rw [ha, if_pos hk]
    · have ha : (c'.count .miss).gate.acquire? key.text =
          some ⟨c.gate.inFlight ++ [key.text], c.gate.broadcasts⟩ := by
        rw [Gate.acquire?_eq_some]
        change key.text ∉ c'.gate.inFlight ∧ _ = Gate.mk (c'.gate.inFlight ++ [key.text]) c'.gate.broadcasts
        rw [hg]
        exact ⟨fun hm => hk (Gate.isInFlight_iff.2 hm), rfl⟩
      rw [ha, if_neg hk]
      exact lookAgain_of_absent _ now key (habsent rfl)

theorem claim?_eq : c.claim? key = if c.gate.isInFlight key.text then none
    else some { c with gate := ⟨c.gate.inFlight ++ [key.text], c.gate.broadcasts⟩ } := by
  unfold claim?
  by_cases hk : c.gate.isInFlight key.text = true
  · rw [if_pos hk, Gate.acquire?_eq_none.2 (Gate.isInFlight_iff.1 hk)]
    rfl
  · have ha : c.gate.acquire? key.text = some ⟨c.gate.inFlight ++ [key.text], c.gate.broadcasts⟩ :=
      Gate.acquire?_eq_some.2 ⟨fun hm => hk (Gate.isInFlight_iff.2 hm), rfl⟩
    rw [if_neg hk, ha]
    rfl

/-! ## The end of a computation -/

theorem stores_finish (role : Role) (outcome : Outcome) : (c.finish now key role outcome).stores =
    c.stores.replay c.config now (role.writes key outcome) := by
  cases role <;> cases outcome <;> rfl

theorem gate_finish (role : Role) (outcome : Outcome) : (c.finish now key role outcome).gate =
    match role with
    | .owner => c.gate.release key.text
    | .alone => c.gate := by
  cases role <;> cases outcome <;> rfl

@[simp] theorem config_finish (role : Role) (outcome : Outcome) :
    (c.finish now key role outcome).config = c.config := by
  cases role <;> cases outcome <;> rfl

@[simp] theorem computations_finish (role : Role) (outcome : Outcome) :
    (c.finish now key role outcome).counters.computations = c.counters.computations := by
  cases role <;> cases outcome <;> rfl

/-! ## The refresh worker -/

/-- The key that a round of the worker computes. -/
def roundKey? (c : ResponseCache) : Option CacheKey :=
  c.queue.line.head?.filter fun key => !c.gate.isInFlight key.text

/-- What a round of the worker writes. -/
def roundWrites (c : ResponseCache) (compute : Compute) : List Access :=
  match c.roundKey? with
  | some key => Role.owner.writes key (compute key.params)
  | none => []

theorem workOne_eq (compute : Compute) : c.workOne now compute =
    match c.roundKey? with
    | some key => (({ c with
        queue := c.queue.dequeue.2
        gate := ⟨c.gate.inFlight ++ [key.text], c.gate.broadcasts⟩ } : ResponseCache).start).finish now key
          .owner (compute key.params)
    | none => { c with queue := c.queue.dequeue.2 } := by
  unfold workOne nextRefresh roundKey? RefreshQueue.dequeue
  cases c.queue.line with
  | nil => rfl
  | cons key rest =>
    simp only [claim?_eq, List.head?_cons, Option.filter_some]
    cases c.gate.isInFlight key.text <;> rfl

theorem stores_workOne (compute : Compute) : (c.workOne now compute).stores =
    c.stores.replay c.config now (c.roundWrites compute) := by
  rw [workOne_eq, roundWrites]
  split
  · exact stores_finish ..
  · rfl

theorem config_workOne (compute : Compute) : (c.workOne now compute).config = c.config := by
  rw [workOne_eq]
  split
  · exact config_finish ..
  · rfl

theorem computations_workOne (compute : Compute) : (c.workOne now compute).counters.computations =
    c.counters.computations + (c.roundKey?.map fun key => (key, compute)).toList.length := by
  rw [workOne_eq]
  split
  · rename_i key hkey
    rw [computations_finish, hkey]
    rfl
  · rename_i hkey
    rw [hkey]
    rfl

/-- A round of the worker that claims its key computes it and ends. -/
theorem workOne_of_claimed {c claimed : ResponseCache} {key : CacheKey} (now : Instant)
    (compute : Compute) (due : c.nextRefresh.1 = some key) (free : c.nextRefresh.2.claim? key = some claimed) :
    c.workOne now compute = claimed.start.finish now key .owner (compute key.params) ∧
      key.text ∈ claimed.gate.inFlight := by
  unfold workOne
  generalize c.nextRefresh = next at due free ⊢
  obtain ⟨first, rest⟩ := next
  subst due
  simp only at free ⊢
  rw [free]
  refine ⟨rfl, ?_⟩
  rw [claim?_eq] at free
  split at free
  · cases free
  · cases free
    exact List.mem_append_right _ (List.mem_singleton.2 rfl)

/-- The key of a round is claimed for it. -/
theorem claimed_of_roundKey {c : ResponseCache} {key : CacheKey} (h : c.roundKey? = some key) :
    c.nextRefresh.1 = some key ∧ ∃ claimed, c.nextRefresh.2.claim? key = some claimed := by
  unfold roundKey? at h
  obtain ⟨hhead, hfree⟩ := Option.filter_eq_some_iff.1 h
  unfold nextRefresh RefreshQueue.dequeue
  cases hline : c.queue.line with
  | nil =>
    rw [hline] at hhead
    cases hhead
  | cons first rest =>
    rw [hline] at hhead
    cases hhead
    refine ⟨rfl, ?_⟩
    rw [claim?_eq]
    simp only [Bool.not_eq_true'] at hfree
    simp [hfree]

/-- A round of the worker gives back what it takes. -/
theorem gate_workOne (compute : Compute) : (c.workOne now compute).gate.inFlight = c.gate.inFlight ∧
    c.gate.Later (c.workOne now compute).gate := by
  rw [workOne_eq]
  split
  · rename_i key hkey
    obtain ⟨-, hfree⟩ := Option.filter_eq_some_iff.1 hkey
    have hfree : key.text ∉ c.gate.inFlight := by
      rw [← Gate.isInFlight_iff]
      simpa using hfree
    rw [gate_finish]
    exact ⟨Gate.inFlight_release_acquired hfree, (Gate.later_acquired ..).trans (Gate.later_release ..)⟩
  · exact ⟨rfl, .refl _⟩

/-- What the first rounds of the worker write. -/
def roundsWrites (now : Instant) (compute : Compute) : Nat → ResponseCache → List Access
  | 0, _ => []
  | n + 1, c => c.roundWrites compute ++ roundsWrites now compute n (c.workOne now compute)

/-- The compute functions that the first rounds of the worker call, each with
its key. -/
def roundsCalls (now : Instant) (compute : Compute) : Nat → ResponseCache → List (CacheKey × Compute)
  | 0, _ => []
  | n + 1, c => (c.roundKey?.map fun key => (key, compute)).toList ++
      roundsCalls now compute n (c.workOne now compute)

theorem config_workRounds (compute : Compute) (n : Nat) (c : ResponseCache) :
    (workRounds now compute n c).config = c.config := by
  induction n generalizing c with
  | zero => rfl
  | succ n ih => rw [workRounds, ih, config_workOne]

theorem stores_workRounds (compute : Compute) (n : Nat) (c : ResponseCache) :
    (workRounds now compute n c).stores = c.stores.replay c.config now (roundsWrites now compute n c) := by
  induction n generalizing c with
  | zero => rfl
  | succ n ih =>
    rw [workRounds, ih, config_workOne, stores_workOne, roundsWrites]
    exact (List.foldl_append ..).symm

theorem computations_workRounds (compute : Compute) (n : Nat) (c : ResponseCache) :
    (workRounds now compute n c).counters.computations =
      c.counters.computations + (roundsCalls now compute n c).length := by
  induction n generalizing c with
  | zero => rfl
  | succ n ih =>
    rw [workRounds, ih, computations_workOne, roundsCalls, List.length_append, Nat.add_assoc]

theorem mem_roundsCalls {now : Instant} {compute : Compute} {n : Nat} {c : ResponseCache}
    {call : CacheKey × Compute} : call ∈ roundsCalls now compute n c ↔
      ∃ m < n, (workRounds now compute m c).roundKey? = some call.1 ∧ call.2 = compute := by
  induction n generalizing c with
  | zero => simp [roundsCalls]
  | succ n ih =>
    rw [roundsCalls, List.mem_append, ih]
    constructor
    · rintro (hfirst | ⟨m, hm, hround⟩)
      · obtain ⟨key, hkey, rfl⟩ : ∃ key, c.roundKey? = some key ∧ (key, compute) = call := by simpa using hfirst
        exact ⟨0, Nat.zero_lt_succ n, hkey, rfl⟩
      · exact ⟨m + 1, Nat.succ_lt_succ hm, hround⟩
    · rintro ⟨_ | m, hm, hround, hcompute⟩
      · left
        simp only [workRounds] at hround
        simp [hround, ← hcompute]
      · exact .inr ⟨m, Nat.lt_of_succ_lt_succ hm, hround, hcompute⟩

/-- What the rounds write is what their calls come to. -/
theorem roundsWrites_eq {now : Instant} {compute : Compute} (n : Nat) (c : ResponseCache) :
    roundsWrites now compute n c = (roundsCalls now compute n c).flatMap fun call =>
      Role.owner.writes call.1 (call.2 call.1.params) := by
  induction n generalizing c with
  | zero => rfl
  | succ n ih =>
    rw [roundsWrites, roundsCalls, List.flatMap_append, ih, roundWrites]
    cases c.roundKey? with
    | none => rfl
    | some key => simp

theorem gate_workRounds (compute : Compute) (n : Nat) (c : ResponseCache) :
    (workRounds now compute n c).gate.inFlight = c.gate.inFlight ∧
      c.gate.Later (workRounds now compute n c).gate := by
  induction n generalizing c with
  | zero => exact ⟨rfl, .refl _⟩
  | succ n ih =>
    obtain ⟨hf, hl⟩ := c.gate_workOne now compute
    obtain ⟨hf', hl'⟩ := ih (c.workOne now compute)
    exact ⟨hf'.trans hf, hl.trans hl'⟩

end ResponseCache

end FizzService
