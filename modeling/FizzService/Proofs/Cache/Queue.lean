/-
The line of keys that wait for a refresh. The keys in line are distinct, the
marks are their texts, and the line never outgrows its capacity
(`RefreshQueue.Sound`); so a key is turned away exactly if it stands in line
already or the line is full (`Sound.enqueue_eq`). Every run keeps it so.

A key comes into the line only when a stale entry is looked up and the key is
not in flight (`queue_lookup`, `queue_settle`), and it leaves at the head
(`line_workRounds`).
-/
import FizzService.Proofs.Cache.Run

namespace FizzService

/-- The marks agree with the line, and nobody stands in it twice. -/
structure RefreshQueue.Sound (q : RefreshQueue) : Prop where
  marks : q.marks = q.line.map (·.text)
  nodup : q.line.Nodup
  bounded : q.line.length ≤ q.capacity

namespace RefreshQueue

variable {q : RefreshQueue} {key key' : CacheKey}

/-- A key that is not let into the line. -/
def Refuses (q : RefreshQueue) (key : CacheKey) : Prop := key ∈ q.line ∨ q.capacity ≤ q.line.length

/-- The line with one more key at its end. -/
def push (q : RefreshQueue) (key : CacheKey) : RefreshQueue :=
  { q with line := q.line ++ [key], marks := q.marks ++ [key.text] }

/-- All keys in turn ask to be let into the line. -/
def enqueueAll (q : RefreshQueue) (keys : List CacheKey) : RefreshQueue :=
  keys.foldl (fun q key => (q.enqueue key).2) q

theorem enqueueAll_append (q : RefreshQueue) (keys keys' : List CacheKey) :
    q.enqueueAll (keys ++ keys') = (q.enqueueAll keys).enqueueAll keys' := List.foldl_append ..

theorem Sound.new {capacity : Nat} (h : new? capacity = some q) :
    q.Sound ∧ q.capacity = max capacity 1 ∧ q.line = [] := by
  unfold new? at h
  split at h
  · cases h
    exact ⟨⟨rfl, .nil, Nat.zero_le _⟩, rfl, rfl⟩
  · cases h

theorem Sound.isQueued_iff (h : q.Sound) : q.isQueued key = true ↔ key ∈ q.line := by
  simp [isQueued, h.marks, CacheKey.text_inj]

theorem Sound.enqueue_refused (h : q.Sound) (hr : q.Refuses key) : q.enqueue key = (false, q) := by
  unfold enqueue
  rcases hr with hm | hfull
  · rw [if_pos (h.isQueued_iff.2 hm)]
  · rw [if_pos hfull, ite_self]

theorem Sound.enqueue_taken (h : q.Sound) (hr : ¬ q.Refuses key) : q.enqueue key = (true, q.push key) := by
  obtain ⟨hm, hroom⟩ := not_or.1 hr
  rw [enqueue, if_neg (fun hq => hm (h.isQueued_iff.1 hq)), if_neg hroom]
  rfl

theorem Sound.push (h : q.Sound) (hr : ¬ q.Refuses key) : (q.push key).Sound := by
  obtain ⟨hm, hroom⟩ := not_or.1 hr
  refine ⟨?_, ?_, ?_⟩
  · simp [RefreshQueue.push, h.marks]
  · simp only [RefreshQueue.push, List.nodup_append]
    refine ⟨h.nodup, by simp, fun a ha b hb hab => hm ?_⟩
    rwa [← List.mem_singleton.1 hb, ← hab]
  · simp only [RefreshQueue.push, List.length_append, List.length_singleton]
    omega

theorem Sound.enqueue (h : q.Sound) (key : CacheKey) : (q.enqueue key).2.Sound := by
  by_cases hr : q.Refuses key
  · rw [h.enqueue_refused hr]
    exact h
  · rw [h.enqueue_taken hr]
    exact h.push hr

@[simp] theorem line_dequeue (q : RefreshQueue) : q.dequeue.2.line = q.line.tail := by
  unfold dequeue
  split <;> rename_i hline <;> simp [hline]

@[simp] theorem capacity_dequeue (q : RefreshQueue) : q.dequeue.2.capacity = q.capacity := by
  unfold dequeue
  split <;> rfl

theorem Sound.dequeue (h : q.Sound) : q.dequeue.2.Sound := by
  have hnodup : q.dequeue.2.line.Nodup := q.line_dequeue ▸ h.nodup.sublist (List.tail_sublist _)
  refine ⟨?_, hnodup, ?_⟩
  · unfold RefreshQueue.dequeue
    have hmarks := h.marks
    split
    · rename_i key rest hline
      simp [hmarks, hline]
    · exact hmarks
  · rw [line_dequeue, capacity_dequeue, List.length_tail]
    exact Nat.le_trans (Nat.sub_le ..) h.bounded

@[simp] theorem capacity_enqueue (q : RefreshQueue) (key : CacheKey) :
    (q.enqueue key).2.capacity = q.capacity := by
  unfold enqueue
  split
  · rfl
  · split <;> rfl

/-- A key comes into the line by its own wish only. -/
theorem mem_of_mem_enqueueAll {keys : List CacheKey} (h : key ∈ (q.enqueueAll keys).line) :
    key ∈ q.line ∨ key ∈ keys := by
  induction keys generalizing q with
  | nil => exact .inl h
  | cons key' keys ih =>
    rcases ih h with hm | hm
    · simp only [enqueue] at hm
      split at hm
      · exact .inl hm
      · split at hm
        · exact .inl hm
        · rcases List.mem_append.1 hm with hm | hm
          · exact .inl hm
          · exact .inr (List.mem_singleton.1 hm ▸ .head _)
    · exact .inr (.tail _ hm)

/-- Where there is room for every key that may come, a key is turned away only
if it stands in line already. -/
theorem Sound.mem_enqueue (h : q.Sound) {keys : List String} (hline : ∀ k ∈ q.line, k.text ∈ keys)
    (hroom : keys.length ≤ q.capacity) (hkey : key'.text ∈ keys) :
    key ∈ (q.enqueue key').2.line ↔ key ∈ q.line ∨ key = key' := by
  by_cases hm : key' ∈ q.line
  · rw [h.enqueue_refused (.inl hm)]
    exact ⟨.inl, fun hk => hk.elim id fun he => he ▸ hm⟩
  · -- With this key, there would be one more in line than there are.
    have hnodup : ((key' :: q.line).map (·.text)).Nodup :=
      List.Pairwise.map _ (fun a b hne he => hne (CacheKey.ext_text he)) (List.nodup_cons.2 ⟨hm, h.nodup⟩)
    have hlength := hnodup.length_le_of_subset fun k hk => by
      obtain ⟨key, hmem, rfl⟩ := List.mem_map.1 hk
      exact (List.mem_cons.1 hmem).elim (fun he => he ▸ hkey) (hline key)
    rw [List.length_map, List.length_cons] at hlength
    rw [h.enqueue_taken (not_or.2 ⟨hm, by omega⟩)]
    simp [RefreshQueue.push]

theorem Sound.mem_enqueueAll (h : q.Sound) {keys : List String} (hline : ∀ k ∈ q.line, k.text ∈ keys)
    (hroom : keys.length ≤ q.capacity) {wanted : List CacheKey} (hwanted : ∀ k ∈ wanted, k.text ∈ keys) :
    key ∈ (q.enqueueAll wanted).line ↔ key ∈ q.line ∨ key ∈ wanted := by
  induction wanted generalizing q with
  | nil => simp [RefreshQueue.enqueueAll]
  | cons key' wanted ih =>
    have hfirst : ∀ k, k ∈ (q.enqueue key').2.line ↔ k ∈ q.line ∨ k = key' :=
      fun _ => h.mem_enqueue hline hroom (hwanted key' (.head _))
    have hline' : ∀ k ∈ (q.enqueue key').2.line, k.text ∈ keys := fun k hk =>
      ((hfirst k).1 hk).elim (hline k) fun he => he ▸ hwanted key' (.head _)
    refine (ih (h.enqueue key') hline' (by rwa [capacity_enqueue]) fun k hk => hwanted k (.tail _ hk)).trans ?_
    rw [hfirst, List.mem_cons, or_assoc]

end RefreshQueue

/-- An entry is found, and it is expired. -/
def Finding.isStale : Finding → Bool
  | .entry _ expired => expired
  | _ => false

namespace ResponseCache

variable (c : ResponseCache) (now : Instant) (key : CacheKey)

/-- Whether a look-up asks for the refresh of its key. -/
def wantsRefresh (c : ResponseCache) (now : Instant) (key : CacheKey) : Bool :=
  (c.stores.find now key.text).1.isStale && !c.gate.isInFlight key.text

theorem queue_requestRefresh : (c.requestRefresh key).queue =
    if c.gate.isInFlight key.text then c.queue else (c.queue.enqueue key).2 := by
  unfold requestRefresh
  split
  · rfl
  · rcases c.queue.enqueue key with ⟨queued, queue⟩
    cases queued <;> rfl

/-- The look-up of a stale entry is all that puts a key in line. -/
theorem queue_lookup : (c.lookup now key).2.queue =
    c.queue.enqueueAll ([key].filter (c.wantsRefresh now)) := by
  unfold lookup
  rw [List.filter_cons, List.filter_nil, wantsRefresh]
  rcases c.stores.find now key.text with ⟨f, stores⟩
  cases f with
  | entry body expired =>
    cases expired with
    | false => rfl
    | true =>
      simp only [queue_requestRefresh]
      change (if c.gate.isInFlight key.text then c.queue else (c.queue.enqueue key).2) = _
      cases c.gate.isInFlight key.text <;> rfl
  | negative record => cases record <;> rfl
  | nothing => rfl

theorem queue_enter : (c.enter now key).2.queue = (c.lookup now key).2.queue := by
  rw [enter_eq]
  split
  · rfl
  · rfl
  · split <;> rfl

theorem queue_finish (role : Role) (outcome : Outcome) :
    (c.finish now key role outcome).queue = c.queue := by
  cases role <;> cases outcome <;> rfl

/-! ## The refresh worker -/

theorem queue_workOne (compute : Compute) : (c.workOne now compute).queue = c.queue.dequeue.2 := by
  rw [workOne_eq]
  split
  · exact queue_finish ..
  · rfl

theorem line_workRounds (compute : Compute) (n : Nat) (c : ResponseCache) :
    (workRounds now compute n c).queue.line = c.queue.line.drop n := by
  induction n generalizing c with
  | zero => rfl
  | succ n ih => rw [workRounds, ih, queue_workOne, RefreshQueue.line_dequeue, List.drop_tail]

/-- The worker empties the line. -/
theorem line_work (compute : Compute) : (c.work now compute).queue.line = [] := by
  rw [work, line_workRounds, List.drop_length]

theorem queue_workRounds_induction {P : RefreshQueue → Prop} (hdequeue : ∀ q, P q → P q.dequeue.2) {compute : Compute}
    (n : Nat) (c : ResponseCache) (h : P c.queue) : P (workRounds now compute n c).queue := by
  induction n generalizing c with
  | zero => exact h
  | succ n ih => exact ih _ (by rw [queue_workOne]; exact hdequeue _ h)

end ResponseCache

namespace Session

variable {s t : Session}

/-! ## Actions and polls -/

theorem queue_launch (s : Session) (job : OpenComputation) (hold : Bool) :
    (s.launch job hold).2.cache.queue = s.cache.queue := by
  cases hold with
  | true => rfl
  | false => exact ResponseCache.queue_finish ..

/-- What an action does to the line: a fetch may put its key there, and only
who takes a key for a refresh takes it out. -/
theorem queue_perform (s : Session) (a : Action) : (s.perform a).2.cache.queue =
    match a with
    | .fetch _ params _ _ => s.cache.queue.enqueueAll ([.ofParams params].filter (s.cache.wantsRefresh s.now))
    | .nextRefresh => s.cache.queue.dequeue.2
    | .work compute => (s.cache.work s.now compute).queue
    | _ => s.cache.queue := by
  cases a with
  | fetch id params compute hold =>
    simp only [perform, fetch]
    rw [← ResponseCache.queue_lookup, ← ResponseCache.queue_enter]
    rcases s.cache.enter s.now (.ofParams params) with ⟨admission, cache⟩
    cases admission with
    | served body => rfl
    | alone | owner => exact queue_launch ..
    | waits => rfl
  | refresh id params compute hold =>
    simp only [perform, refresh, ResponseCache.claim?_eq]
    split
    · rename_i hclaim
      split at hclaim
      · cases hclaim
      · cases hclaim
        exact queue_launch ..
    · rfl
  | finish id =>
    simp only [perform, finish]
    split
    · rfl
    · exact ResponseCache.queue_finish ..
  | cancel id => simp only [perform, cancel]; split <;> rfl
  | advance time =>
    simp only [perform, advance, sweepIfDue]
    split
    · split <;> rfl
    · rfl
  | drain time =>
    simp only [perform, drain, advance, sweepIfDue]
    split
    · rfl
    · split
      · split <;> rfl
      · rfl
  | _ => rfl

theorem queue_resume (s : Session) (f : WaitingFetch) : (s.resume f).2.cache.queue =
    s.cache.queue.enqueueAll ([f.key].filter (s.cache.wantsRefresh s.now)) := by
  rw [← ResponseCache.queue_lookup]
  unfold resume
  rcases s.cache.lookup s.now f.key with ⟨found, cache⟩
  cases found with
  | served body => rfl
  | bypass | missing => exact queue_launch ..

theorem wantsRefresh_resume (s : Session) (f : WaitingFetch) :
    (s.resume f).2.cache.wantsRefresh (s.resume f).2.now = s.cache.wantsRefresh s.now := by
  obtain ⟨hnow, -, -, -, hgate, -, hstores, -⟩ := s.resume_snd f
  funext key
  rw [ResponseCache.wantsRefresh, hnow, hgate, hstores, Stores.find_find]
  rfl

theorem queue_pollAll (fs : List WaitingFetch) (hgate : t.cache.gate = s.cache.gate)
    (hwants : t.cache.wantsRefresh t.now = s.cache.wantsRefresh s.now) :
    (pollAll fs t).2.cache.queue = t.cache.queue.enqueueAll
      (((fs.filter fun f => (f.waiter.poll s.cache.gate).isNone).map (·.key)).filter
        (s.cache.wantsRefresh s.now)) := by
  induction fs generalizing t with
  | nil => rfl
  | cons f fs ih =>
    rw [pollAll, hgate]
    cases hp : f.waiter.poll s.cache.gate with
    | some w =>
      simp only [List.filter_cons, hp, Option.isNone_some, Bool.false_eq_true, if_false]
      exact ih hgate hwants
    | none =>
      obtain ⟨-, -, -, -, hgate', -⟩ := t.resume_snd f
      have ih := ih (hgate'.trans hgate) ((t.wantsRefresh_resume f).trans hwants)
      have hready : ((f :: fs).filter fun f => (f.waiter.poll s.cache.gate).isNone) =
          f :: fs.filter fun f => (f.waiter.poll s.cache.gate).isNone :=
        List.filter_cons_of_pos (by rw [hp]; rfl)
      rw [hready, ih, queue_resume, hwants, ← RefreshQueue.enqueueAll_append, ← List.filter_append]
      rfl

/-- A poll puts the keys in line that those who go on find stale. -/
theorem queue_settle (s : Session) : s.settle.2.cache.queue = s.cache.queue.enqueueAll
    ((s.ready.map (·.key)).filter (s.cache.wantsRefresh s.now)) :=
  queue_pollAll s.waiting rfl rfl

/-! ## Runs -/

variable {key : CacheKey}

/-- Only who looks a key up puts it in line. -/
theorem mem_line_perform {a : Action} (h : key ∈ (s.perform a).2.cache.queue.line) :
    key ∈ s.cache.queue.line ∨ a.params? = some key.params ∧ .find key ∈ s.accesses a := by
  rw [queue_perform] at h
  split at h
  · rename_i params _ _
    rcases RefreshQueue.mem_of_mem_enqueueAll h with hm | hm
    · exact .inl hm
    · rw [List.mem_singleton.1 (List.mem_filter.1 hm).1]
      exact .inr ⟨rfl, .head _⟩
  · rw [RefreshQueue.line_dequeue] at h
    exact .inl (List.mem_of_mem_tail h)
  · rw [ResponseCache.work, ResponseCache.line_workRounds] at h
    exact .inl (List.mem_of_mem_drop h)
  · exact .inl h

theorem mem_line_next {t : Step} (h : key ∈ (s.next t).cache.queue.line) :
    key ∈ s.cache.queue.line ∨ .find key ∈ s.stepAccesses t := by
  rw [next_eq] at h
  rw [stepAccesses, List.mem_append]
  split at h
  · rename_i hsettled
    rw [queue_settle] at h
    rcases RefreshQueue.mem_of_mem_enqueueAll h with hm | hm
    · exact (mem_line_perform hm).imp_right fun hp => .inl hp.2
    · obtain ⟨f, hf, rfl⟩ := List.mem_map.1 (List.mem_filter.1 hm).1
      rw [if_pos hsettled]
      exact .inr (.inr (List.mem_map.2 ⟨f, hf, rfl⟩))
  · exact (mem_line_perform h).imp_right fun hp => .inl hp.2

theorem not_mem_line_after {run : List Step} (h : key ∉ s.cache.queue.line) (hrun : .find key ∉ s.history run) :
    key ∉ (s.after run).cache.queue.line := by
  induction run generalizing s with
  | nil => exact h
  | cons t run ih =>
    rw [history, List.mem_append, not_or] at hrun
    exact ih (fun hm => (mem_line_next hm).elim h hrun.1) hrun.2

variable {P : RefreshQueue → Prop}

theorem enqueueAll_induction {q : RefreshQueue} (h : P q) (henqueue : ∀ q key, P q → P (q.enqueue key).2)
    (keys : List CacheKey) : P (q.enqueueAll keys) := by
  induction keys generalizing q with
  | nil => exact h
  | cons key keys ih => exact ih (henqueue q key h)

theorem queue_perform_induction (h : P s.cache.queue) (henqueue : ∀ q key, P q → P (q.enqueue key).2)
    (hdequeue : ∀ q, P q → P q.dequeue.2) (a : Action) : P (s.perform a).2.cache.queue := by
  rw [queue_perform]
  split
  · exact enqueueAll_induction h henqueue _
  · exact hdequeue _ h
  · exact ResponseCache.queue_workRounds_induction _ hdequeue _ _ h
  · exact h

theorem queue_settle_induction (h : P s.cache.queue) (henqueue : ∀ q key, P q → P (q.enqueue key).2) :
    P s.settle.2.cache.queue := by
  rw [queue_settle]
  exact enqueueAll_induction h henqueue _

/-- The line is in order, and there is room in it for at least `n` keys. -/
def LineFor (n : Nat) (s : Session) : Prop := s.cache.queue.Sound ∧ n ≤ s.cache.queue.capacity

theorem LineFor.perform {n : Nat} (h : s.LineFor n) (a : Action) : (s.perform a).2.LineFor n :=
  queue_perform_induction (P := fun q => q.Sound ∧ n ≤ q.capacity) h
    (fun q key hq => ⟨hq.1.enqueue key, q.capacity_enqueue key ▸ hq.2⟩)
    (fun q hq => ⟨hq.1.dequeue, q.capacity_dequeue ▸ hq.2⟩) a

theorem LineFor.settle {n : Nat} (h : s.LineFor n) : s.settle.2.LineFor n :=
  queue_settle_induction (P := fun q => q.Sound ∧ n ≤ q.capacity) h
    fun q key hq => ⟨hq.1.enqueue key, q.capacity_enqueue key ▸ hq.2⟩

theorem queue_new {config : CacheConfig} (h : Session.new config = .ok s) :
    RefreshQueue.new? config.refreshQueueCapacity.toNat = some s.cache.queue := by
  obtain ⟨c, hc, rfl⟩ := exists_of_new h
  obtain ⟨-, queue, hq, rfl⟩ := ResponseCache.new_eq_ok.1 hc
  exact hq

theorem LineFor.new {config : CacheConfig} (h : Session.new config = .ok s) :
    s.LineFor (max config.refreshQueueCapacity.toNat 1) :=
  ⟨(RefreshQueue.Sound.new (queue_new h)).1, Nat.le_of_eq (RefreshQueue.Sound.new (queue_new h)).2.1.symm⟩

/-- In every state that a cache comes to, the line is in order. -/
theorem LineFor.after {n : Nat} (h : s.LineFor n) (run : List Step) : (s.after run).LineFor n :=
  after_induction h (fun _ a hs => hs.perform a) (fun _ hs => hs.settle) run

end Session

end FizzService
