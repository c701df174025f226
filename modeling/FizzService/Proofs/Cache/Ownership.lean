/-
Who owns a key, and that nobody waits in vain. In every state that a cache
comes to, the registry of the gate is the list of the owners' computations
that are open, key by key and in the order in which they started, whether or
not their callers are still there (`Owned.registry`). Each waiting fetch waits
for the release of its own key and has heard of every release so far that it
could have missed (`Owned.waits`), so after a poll nobody is left waiting for
a key that is free (`Owned.attended_settle`).

An end of a computation makes the open computations and the waiting fetches
together fewer, whatever the fetches that go on open in their turn
(`open_finish`). So a cache winds down in any order, and at the end nothing is
open, in flight or waiting (`WindsDown`).
-/
import FizzService.Proofs.Cache.Run

namespace FizzService

namespace Session

/-- The keys of the owners' computations that are open. -/
def owned (s : Session) : List String := (s.running.filter (·.purpose.role = .owner)).map (·.key.text)

structure Owned (s : Session) : Prop where
  registry : s.cache.gate.inFlight = s.owned
  distinct : s.cache.gate.inFlight.Nodup
  waits : ∀ f ∈ s.waiting, f.waiter.awaited = .released f.key.text ∧ f.waiter.Sound s.cache.gate

/-- Every waiting fetch waits for its key, which is in flight. -/
def Attended (s : Session) : Prop := ∀ f ∈ s.waiting,
  f.waiter.awaited = .released f.key.text ∧ f.key.text ∈ s.cache.gate.inFlight

/-- The calls that have not ended: computations that are open and fetches
that wait. -/
def pending (s : Session) : Nat := s.running.length + s.waiting.length

variable {s t : Session}

/-! ## The registry -/

/-- Where the names of the chosen elements are distinct, to drop an element
that is found is to drop its name. -/
theorem map_filter_eraseP {α β : Type} [DecidableEq β] {p q : α → Bool} {f : α → β} {l : List α} {a : α}
    (found : l.find? p = some a) (hn : ((l.filter q).map f).Nodup) :
    ((l.eraseP p).filter q).map f =
      if q a then ((l.filter q).map f).filter (· ≠ f a) else (l.filter q).map f := by
  induction l with
  | nil => cases found
  | cons b l ih =>
    rw [List.find?_cons] at found
    split at found
    · rename_i hp
      cases found
      rw [List.eraseP_cons_of_pos hp]
      cases hq : q a with
      | false => simp [hq]
      | true =>
        simp only [List.filter_cons, hq, if_true, List.map_cons, List.nodup_cons] at hn ⊢
        have hne : ∀ c ∈ (l.filter q).map f, decide (c ≠ f a) = true := fun c hc =>
          decide_eq_true fun he => hn.1 (he ▸ hc)
        rw [if_neg (by simp), List.filter_eq_self.2 hne]
    · rename_i hp
      rw [List.eraseP_cons_of_neg (by simp [hp])]
      cases hq : q b with
      | false =>
        simp only [List.filter_cons, hq, Bool.false_eq_true, if_false] at hn ⊢
        exact ih found hn
      | true =>
        simp only [List.filter_cons, hq, if_true, List.map_cons, List.nodup_cons] at hn ⊢
        rw [ih found hn.2]
        cases hqa : q a with
        | false => rfl
        | true =>
          have hmem : f a ∈ (l.filter q).map f :=
            List.mem_map_of_mem (List.mem_filter.2 ⟨List.mem_of_find?_eq_some found, hqa⟩)
          have hne : f b ≠ f a := fun he => hn.1 (he ▸ hmem)
          simp [hne]

/-- A waiting fetch may sleep on while no key is given back unheard. -/
theorem Owned.waits_later (h : s.Owned) (later : s.cache.gate.Later t.cache.gate)
    (waiting : t.waiting ⊆ s.waiting) :
    ∀ f ∈ t.waiting, f.waiter.awaited = .released f.key.text ∧ f.waiter.Sound t.cache.gate := by
  intro f hf
  obtain ⟨hawaits, hsound⟩ := h.waits f (waiting hf)
  exact ⟨hawaits, hsound.later later⟩

/-- Every move keeps the registry. -/
theorem Owned.moves {a : Action} (h : s.Owned) (hm : s.Moves t a) : t.Owned := by
  cases hm with
  | passes _ inFlight later running waiting =>
    refine ⟨?_, inFlight ▸ h.distinct, h.waits_later later (waiting ▸ fun _ hf => hf)⟩
    rw [inFlight, owned, running]
    exact h.registry
  | opens _ job _ free gate running waiting =>
    cases hr : job.purpose.role with
    | owner =>
      rw [hr] at gate
      refine ⟨?_, ?_, h.waits_later (gate ▸ Gate.later_acquired ..) (waiting ▸ fun _ hf => hf)⟩
      · simp [gate, owned, running, hr, h.registry]
      · rw [gate, List.nodup_append]
        refine ⟨h.distinct, by simp, fun k hk k' hk' he => free hr ?_⟩
        rw [← List.mem_singleton.1 hk', ← he]
        exact hk
    | alone =>
      rw [hr] at gate
      refine ⟨?_, gate ▸ h.distinct, h.waits_later (gate ▸ .refl _) (waiting ▸ fun _ hf => hf)⟩
      simp [gate, owned, running, hr, h.registry]
  | waits _ f _ taken awaits gate running waiting =>
    refine ⟨?_, gate ▸ h.distinct, fun f' hf' => ?_⟩
    · rw [gate, owned, running]
      exact h.registry
    · rw [gate]
      rw [waiting, List.mem_append, List.mem_singleton] at hf'
      rcases hf' with hf' | rfl
      · exact h.waits f' hf'
      · -- It has just seen its key in flight.
        rw [awaits]
        refine ⟨rfl, fun n hn => ?_⟩
        cases hn
        exact ⟨Nat.le_refl _, fun _ => by simp [Awaited.holds, Gate.isInFlight_iff.2 taken]⟩
  | closes id job found gate running waiting =>
    have hdistinct : s.owned.Nodup := h.registry ▸ h.distinct
    have hclosed : t.owned = if decide (job.purpose.role = .owner) then s.owned.filter (· ≠ job.key.text)
        else s.owned := by
      rw [owned, running]
      exact map_filter_eraseP found hdistinct
    cases hr : job.purpose.role with
    | owner =>
      rw [hr] at gate hclosed
      refine ⟨?_, ?_, h.waits_later (gate ▸ Gate.later_release ..) (waiting ▸ fun _ hf => hf)⟩
      · rw [gate, hclosed, ← h.registry]
        rfl
      · rw [gate]
        exact h.distinct.filter _
    | alone =>
      rw [hr] at gate hclosed
      refine ⟨?_, gate ▸ h.distinct, h.waits_later (gate ▸ .refl _) (waiting ▸ fun _ hf => hf)⟩
      rw [gate, hclosed]
      exact h.registry
  | leaves id gate running waiting =>
    refine ⟨?_, gate ▸ h.distinct,
      h.waits_later (gate ▸ .refl _) (waiting ▸ fun _ hf => (List.mem_filter.1 hf).1)⟩
    rw [gate, owned, running]
    exact h.registry
  | abandons id gate running waiting =>
    refine ⟨?_, gate ▸ h.distinct, h.waits_later (gate ▸ .refl _) (waiting ▸ fun _ hf => hf)⟩
    -- Only the mark of the caller changes.
    have hkeeps : ∀ job : OpenComputation,
        (if job.id = id then { job with abandoned := true } else job).purpose = job.purpose ∧
        (if job.id = id then { job with abandoned := true } else job).key = job.key := by
      intro job
      split <;> exact ⟨rfl, rfl⟩
    rw [gate, h.registry, owned, owned, running, List.filter_map, List.map_map]
    simp only [Function.comp_def, hkeeps]

/-! ## A poll -/

theorem mem_kept {f : WaitingFetch} (h : f ∈ s.kept) :
    ∃ f' ∈ s.waiting, ∃ w, f'.waiter.poll s.cache.gate = some w ∧ f = { f' with waiter := w } := by
  obtain ⟨f', hf', he⟩ := List.mem_filterMap.1 h
  obtain ⟨w, hw, rfl⟩ := Option.map_eq_some_iff.1 he
  exact ⟨f', hf', w, hw, rfl⟩

/-- What goes on in a poll owns nothing. -/
theorem owned_settle (s : Session) : s.settle.2.owned = s.owned := by
  have hnone : (s.ready.flatMap s.opened).filter (·.purpose.role = .owner) = [] := by
    refine List.filter_eq_nil_iff.2 fun job hjob => ?_
    obtain ⟨f, -, hopened⟩ := List.mem_flatMap.1 hjob
    rw [purpose_of_opened hopened]
    simp [Purpose.role]
  rw [owned, owned, running_settle, List.filter_append, hnone, List.append_nil]

theorem Owned.settle (h : s.Owned) : s.settle.2.Owned := by
  refine ⟨?_, s.gate_settle ▸ h.distinct, fun f hf => ?_⟩
  · rw [gate_settle, owned_settle]
    exact h.registry
  · rw [waiting_settle] at hf
    rw [gate_settle]
    obtain ⟨f', hf', w, hw, rfl⟩ := mem_kept hf
    obtain ⟨hawaits, hsound⟩ := h.waits f' hf'
    obtain ⟨hsound', hawaits', -⟩ := hsound.of_poll hw
    exact ⟨hawaits'.trans hawaits, hsound'⟩

/-- **Nobody waits for a free key** once all have looked. -/
theorem Owned.attended_settle (h : s.Owned) : s.settle.2.Attended := by
  intro f hf
  rw [waiting_settle] at hf
  rw [gate_settle]
  obtain ⟨f', hf', w, hw, rfl⟩ := mem_kept hf
  obtain ⟨hawaits, hsound⟩ := h.waits f' hf'
  obtain ⟨-, hawaits', hholds⟩ := hsound.of_poll hw
  refine ⟨hawaits'.trans hawaits, ?_⟩
  rw [hawaits', hawaits] at hholds
  simpa [Awaited.holds, Gate.isInFlight_iff] using hholds

theorem Owned.next (h : s.Owned) (t : Step) : (s.next t).Owned :=
  next_induction h (fun a hs => hs.moves (s.perform_performed a).moves) (fun _ hs => hs.settle) t

theorem Owned.after (h : s.Owned) (run : List Step) : (s.after run).Owned :=
  after_induction h (fun s a hs => hs.moves (s.perform_performed a).moves) (fun _ hs => hs.settle) run

theorem Owned.attended_next (h : s.Owned) {t : Step} (ht : t.settled = true) : (s.next t).Attended := by
  rw [next_eq, if_pos ht]
  exact (h.moves (s.perform_performed t.action).moves).attended_settle

theorem Owned.new {config : CacheConfig} (h : Session.new config = .ok s) : s.Owned := by
  obtain ⟨-, queue, rfl⟩ := new_eq_ok h
  exact ⟨rfl, .nil, fun f hf => by cases hf⟩

/-! ## Winding down -/

/-- A poll makes the calls that have not ended no more. -/
theorem pending_settle (s : Session) : s.settle.2.pending ≤ s.pending := by
  have hopened : ∀ fs : List WaitingFetch, (fs.flatMap s.opened).length ≤ fs.length := by
    intro fs
    induction fs with
    | nil => exact Nat.le_refl _
    | cons f fs ih =>
      have hone : (s.opened f).length ≤ 1 := by
        unfold opened
        split
        · exact Nat.zero_le _
        · split
          · exact Nat.le_refl _
          · exact Nat.zero_le _
      rw [List.flatMap_cons, List.length_append, List.length_cons]
      omega
  have hsplit : ∀ fs : List WaitingFetch,
      (fs.filter fun f => (f.waiter.poll s.cache.gate).isNone).length +
        (fs.filterMap fun f => (f.waiter.poll s.cache.gate).map fun w => { f with waiter := w }).length =
      fs.length := by
    intro fs
    induction fs with
    | nil => rfl
    | cons f fs ih =>
      rw [List.filter_cons, List.filterMap_cons]
      cases f.waiter.poll s.cache.gate with
      | none =>
        simp only [Option.isNone_none, if_true, Option.map_none, List.length_cons]
        omega
      | some w =>
        simp only [Option.isNone_some, Bool.false_eq_true, if_false, Option.map_some, List.length_cons]
        omega
  have hready := hopened s.ready
  have hwaiting := hsplit s.waiting
  rw [pending, pending, running_settle, waiting_settle, List.length_append, kept]
  rw [ready] at hready ⊢
  omega

/-- An action that begins no call makes the calls that have not ended no more. -/
theorem pending_moves {a : Action} (hm : s.Moves t a) (ha : a.params? = none) : t.pending ≤ s.pending := by
  unfold pending
  cases hm with
  | passes _ _ _ running waiting => exact Nat.le_of_eq (by rw [running, waiting])
  | opens _ job named => rw [ha] at named; cases named
  | waits _ f named => rw [ha] at named; cases named
  | closes id job _ _ running waiting =>
    have := (s.running.eraseP_sublist (p := (·.id = id))).length_le
    rw [running, waiting]
    omega
  | leaves id _ running waiting =>
    have := List.length_filter_le (·.id ≠ id) s.waiting
    rw [running, waiting]
    omega
  | abandons id _ running waiting => exact Nat.le_of_eq (by rw [running, waiting, List.length_map])

theorem pending_next {last : Step} (hlast : last.action.params? = none) :
    (s.next last).pending ≤ s.pending := by
  have hmoves := (s.perform_performed last.action).moves
  rw [next_eq]
  split
  · exact Nat.le_trans (pending_settle _) (pending_moves hmoves hlast)
  · exact pending_moves hmoves hlast

/-- The end of an open computation makes the calls that have not ended fewer. -/
theorem pending_finish {id : CallId} (hid : id ∈ s.running.map (·.id)) :
    (s.next ⟨.finish id, true⟩).pending < s.pending := by
  obtain ⟨job, hjob, rfl⟩ := List.mem_map.1 hid
  have hfound : (s.running.find? (·.id = job.id)).isSome = true :=
    List.find?_isSome.2 ⟨job, hjob, decide_eq_true rfl⟩
  obtain ⟨first, hfirst⟩ := Option.isSome_iff_exists.1 hfound
  have hfinish : (s.perform (.finish job.id)).2.pending < s.pending := by
    have hlength := List.length_eraseP_of_mem hjob (p := (·.id = job.id)) (decide_eq_true rfl)
    have hpos := List.length_pos_of_mem hjob
    simp only [perform, finish, hfirst, conclude, pending]
    omega
  rw [next_eq, if_pos rfl]
  exact Nat.lt_of_le_of_lt (pending_settle _) hfinish

/-- Nothing is in flight, open or waiting. -/
structure Quiet (s : Session) : Prop where
  inFlight : s.cache.gate.count = 0
  running : s.running = []
  waiting : s.waiting = []

theorem Owned.quiet (h : s.Owned) (hp : s.pending = 0) : s.Quiet := by
  have hrunning : s.running = [] := List.eq_nil_of_length_eq_zero (by unfold pending at hp; omega)
  refine ⟨?_, hrunning, List.eq_nil_of_length_eq_zero (by unfold pending at hp; omega)⟩
  rw [Gate.count, h.registry, owned, hrunning]
  rfl

/-- Computations that are open end, one after the other and each with a poll,
until none is open. -/
inductive WindsDown : Session → List CallId → Session → Prop
  | done {s : Session} (idle : s.running = []) : WindsDown s [] s
  | finish {s t : Session} {id : CallId} {ids : List CallId} (opened : id ∈ s.running.map (·.id))
    (rest : WindsDown (s.next ⟨.finish id, true⟩) ids t) : WindsDown s (id :: ids) t

/-- The computations can end in whichever order. -/
theorem exists_windsDown (s : Session) : ∃ ids t, s.WindsDown ids t := by
  cases hr : s.running with
  | nil => exact ⟨[], s, .done hr⟩
  | cons job jobs =>
    have hid : job.id ∈ s.running.map (·.id) := by simp [hr]
    have hless := pending_finish hid
    obtain ⟨ids, t, hrest⟩ := exists_windsDown (s.next ⟨.finish job.id, true⟩)
    exact ⟨job.id :: ids, t, .finish hid hrest⟩
termination_by s.pending

theorem WindsDown.length_le {ids : List CallId} (hw : s.WindsDown ids t) :
    ids.length + t.pending ≤ s.pending := by
  induction hw with
  | done => exact Nat.le_of_eq (Nat.zero_add _)
  | finish opened rest ih =>
    have := pending_finish opened
    rw [List.length_cons]
    omega

theorem WindsDown.owned {ids : List CallId} (hw : s.WindsDown ids t) (h : s.Owned) : t.Owned := by
  induction hw with
  | done => exact h
  | finish opened rest ih => exact ih (h.next _)

/-- Once all have looked, nobody waits when nothing is open. -/
theorem WindsDown.quiet {ids : List CallId} (hw : s.WindsDown ids t) (h : s.Owned)
    (ha : ids ≠ [] ∨ s.Attended) : t.Quiet := by
  induction hw with
  | @done s idle =>
    have hattended := ha.resolve_left fun hne => hne rfl
    have hregistry : s.cache.gate.inFlight = [] := by rw [h.registry, Session.owned, idle]; rfl
    refine ⟨congrArg List.length hregistry, idle, List.eq_nil_iff_forall_not_mem.2 fun f hf => ?_⟩
    have hmem := (hattended f hf).2
    rw [hregistry] at hmem
    cases hmem
  | finish opened rest ih => exact ih (h.next _) (.inr (h.attended_next rfl))

/-- **Owners are on record until they end, and nobody is stranded.** The
registry is the list of the owners' computations that are open; after a step
with a poll every waiting fetch waits for a key of it; and if the open
computations end in whichever order, each with a poll, and one more step with
a poll begins no call, nothing is left but what the fetches that went on in
this last poll opened, and when that ends, nothing at all. -/
theorem owners_registered_and_released {config : CacheConfig} {s₀ : Session}
    (h : Session.new config = .ok s₀) (run : List Step) :
    (s₀.after run).cache.gate.inFlight = (s₀.after run).owned ∧
    (s₀.after run).owned.Nodup ∧
    (∀ t : Step, t.settled = true → ((s₀.after run).next t).Attended) ∧
    (∃ ids t, (s₀.after run).WindsDown ids t) ∧
    ∀ ids t, (s₀.after run).WindsDown ids t →
      ∀ last : Step, last.settled = true → last.action.params? = none →
        (ids ≠ [] → (t.next last).Quiet) ∧
        (∃ ids' u, (t.next last).WindsDown ids' u) ∧
        ∀ ids' u, (t.next last).WindsDown ids' u →
          u.Quiet ∧ ids.length + ids'.length ≤ (s₀.after run).pending := by
  have howned := (Owned.new h).after run
  refine ⟨howned.registry, howned.registry ▸ howned.distinct, fun t ht => howned.attended_next ht,
    exists_windsDown _, fun ids t hw last hsettled hlast => ?_⟩
  have ht := hw.owned howned
  refine ⟨fun hne => ?_, exists_windsDown _, fun ids' u hw' => ⟨?_, ?_⟩⟩
  · obtain ⟨-, hrunning, hwaiting⟩ := hw.quiet howned (.inl hne)
    have hpending : t.pending = 0 := by rw [pending, hrunning, hwaiting]; rfl
    have hnext := pending_next (s := t) hlast
    exact (ht.next last).quiet (by omega)
  · exact hw'.quiet (ht.next last) (.inr (ht.attended_next hsettled))
  · have hnext := pending_next (s := t) hlast
    have := hw.length_le
    have := hw'.length_le
    omega

/-- A fetch waits for another; when that one crashes, it computes on its own,
and when that has ended too, all is quiet. -/
theorem owners_registered_and_released_small : Session.new .small = .ok .small ∧
    ((small.after [⟨.fetch "a" default (fun _ => .crash) true, true⟩]).next
      ⟨.fetch "b" default (fun _ => .crash) true, true⟩).waiting.length = 1 ∧
    ((small.after [⟨.fetch "a" default (fun _ => .crash) true, true⟩]).next
      ⟨.fetch "b" default (fun _ => .crash) true, true⟩).Attended ∧
    ((small.after [⟨.fetch "a" default (fun _ => .crash) true, true⟩,
      ⟨.fetch "b" default (fun _ => .crash) true, true⟩, ⟨.finish "a", true⟩, ⟨.finish "b", true⟩]).next
        ⟨.advance 0, true⟩).Quiet := by
  have hone := owners_registered_and_released new_small [⟨.fetch "a" default (fun _ => .crash) true, true⟩]
  have htwo := owners_registered_and_released new_small
    [⟨.fetch "a" default (fun _ => .crash) true, true⟩, ⟨.fetch "b" default (fun _ => .crash) true, true⟩]
  have hw : (small.after [⟨.fetch "a" default (fun _ => .crash) true, true⟩,
      ⟨.fetch "b" default (fun _ => .crash) true, true⟩]).WindsDown ["a", "b"] _ :=
    .finish (.head _) (.finish (.head _) (.done rfl))
  refine ⟨new_small, rfl, hone.2.2.1 _ rfl, ?_⟩
  exact (htwo.2.2.2.2 _ _ hw ⟨.advance 0, true⟩ rfl rfl).1 (List.cons_ne_nil _ _)

end Session

end FizzService
