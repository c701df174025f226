/-
A gate in use, by owners who hold guards and by waiters. The keys in flight
are those of the guards, each of one guard only (`Guarded`); to acquire and to
release moves one guard with its key, and no other (`get?_perform`,
`mem_perform`). Whoever sleeps has missed nothing (`Reached`). So a poll, which lets only those look
who have heard a release, ends the same waits as if all had looked
(`Reached.settle`): it names each waiter for which what it waits for has come,
and no other. What was in flight before or between the polls plays no part.
-/
import FizzService.Gate.Session
import FizzService.Proofs.Gate

namespace FizzService

/-- What those who use a gate do. -/
inductive GateAction (ι κ : Type) where
  | acquire (id : ι) (key : κ)
  | release (id : ι)
  | wait (id : ι) (awaited : Awaited κ)
  | cancel (id : ι)
deriving DecidableEq, Repr

/-- An action, with or without a poll of the waiters after it. -/
structure GateStep (ι κ : Type) where
  action : GateAction ι κ
  settled : Bool
deriving DecidableEq, Repr

namespace Awaited

variable {κ : Type} [DecidableEq κ]

/-- What is waited for has come: the key is free, or every key is. -/
def Due (a : Awaited κ) (g : Gate κ) : Prop :=
  match a with
  | released k => k ∉ g.inFlight
  | idle => g.inFlight = []

theorem holds_iff_due (a : Awaited κ) (g : Gate κ) : a.holds g = true ↔ a.Due g := by
  cases a with
  | released k => simp [holds, Due, Gate.isInFlight]
  | idle => simp [holds, Due, Gate.isIdle]

instance (a : Awaited κ) (g : Gate κ) : Decidable (a.Due g) := decidable_of_iff _ (a.holds_iff_due g)

theorem decide_due (a : Awaited κ) (g : Gate κ) : decide (a.Due g) = a.holds g := by
  rw [Bool.eq_iff_iff, decide_eq_true_iff, holds_iff_due]

end Awaited

/-- Those who have missed nothing and wait on are those for which what they
wait for has not come. -/
theorem Waiter.waits_polled {ι κ : Type} [DecidableEq κ] {g : Gate κ} {ws : List (ι × Waiter κ)}
    (hsound : ∀ w ∈ ws, w.2.Sound g) :
    (ws.filterMap fun w => (w.2.poll g).map fun p => (w.1, p)).map (fun w => (w.1, w.2.awaited)) =
      (ws.map fun w => (w.1, w.2.awaited)).filter fun w => !w.2.holds g := by
  induction ws with
  | nil => rfl
  | cons w ws ih =>
    have ih := ih fun w hw => hsound w (.tail _ hw)
    have hw := hsound w (.head _)
    have hnone := hw.poll_isNone
    cases hpoll : w.2.poll g with
    | none =>
      rw [hpoll] at hnone
      rw [List.filterMap_cons_none (by rw [hpoll]; rfl), List.map_cons, List.filter_cons_of_neg (by simp [← hnone]), ih]
    | some p =>
      rw [hpoll] at hnone
      rw [List.filterMap_cons_some (by rw [hpoll]; rfl), List.map_cons, List.map_cons,
        List.filter_cons_of_pos (by simp [← hnone]), ih, (hw.of_poll hpoll).2.1]

namespace GateSession

variable {ι κ : Type} [DecidableEq ι] [DecidableEq κ]

/-- An action, answered with whether a guard was given or given back. -/
def perform (s : GateSession ι κ) : GateAction ι κ → Bool × GateSession ι κ
  | .acquire id key => s.acquire id key
  | .release id => s.release id
  | .wait id awaited => (true, s.wait id awaited)
  | .cancel id => (true, s.cancel id)

/-- The waiters that a step reports as done. -/
def finished (s : GateSession ι κ) (t : GateStep ι κ) : List ι :=
  if t.settled then (s.perform t.action).2.settle.1 else []

/-- The session that a step leaves. -/
def next (s : GateSession ι κ) (t : GateStep ι κ) : GateSession ι κ :=
  if t.settled then (s.perform t.action).2.settle.2 else (s.perform t.action).2

/-- The session that a run leaves. -/
def after (s : GateSession ι κ) (run : List (GateStep ι κ)) : GateSession ι κ := run.foldl next s

/-- Who waits, and for what. -/
def waits (s : GateSession ι κ) : List (ι × Awaited κ) := s.waiters.map fun w => (w.1, w.2.awaited)

/-- The registry holds the keys of the guards and no others, and no key has
two guards. -/
structure Guarded (s : GateSession ι κ) : Prop where
  distinct : s.gate.inFlight.Nodup
  registry : ∀ key, key ∈ s.gate.inFlight ↔ ∃ id, s.guards.get? id = some key
  single : ∀ id id' key, s.guards.get? id = some key → s.guards.get? id' = some key → id = id'

/-- A session that a run of steps comes to. -/
structure Reached (s : GateSession ι κ) : Prop where
  guarded : s.Guarded
  sound : ∀ w ∈ s.waiters, w.2.Sound s.gate

variable {s : GateSession ι κ} {id : ι} {key : κ}

/-! ## Guards -/

theorem get?_release (s : GateSession ι κ) (id id' : ι) :
    (s.release id).2.guards.get? id' = if id' = id then none else s.guards.get? id' := by
  unfold release
  cases hguard : s.guards.get? id with
  | some key => exact s.guards.get?_erase id id'
  | none =>
    simp only
    split
    · rename_i he
      rw [he, hguard]
    · rfl

theorem mem_release : key ∈ (s.release id).2.gate.inFlight ↔
    key ∈ s.gate.inFlight ∧ s.guards.get? id ≠ some key := by
  unfold release
  cases hguard : s.guards.get? id with
  | some owned =>
    rw [ne_eq, Option.some.injEq, eq_comm (a := owned)]
    exact List.mem_filter.trans (and_congr_right fun _ => decide_eq_true_iff)
  | none => simp only [ne_eq, reduceCtorEq, not_false_eq_true, and_true]

theorem release_keeps (s : GateSession ι κ) (id : ι) : (s.release id).2.waiters = s.waiters ∧
    (s.release id).2.gate.inFlight.Sublist s.gate.inFlight ∧ s.gate.Later (s.release id).2.gate := by
  unfold release
  cases s.guards.get? id with
  | some key => exact ⟨rfl, List.filter_sublist, Gate.later_release ..⟩
  | none => exact ⟨rfl, .refl _, .refl _⟩

theorem release_fst (s : GateSession ι κ) (id : ι) : (s.release id).1 = (s.guards.get? id).isSome := by
  unfold release
  cases s.guards.get? id <;> rfl

/-- A guard is given for a key that is free, and for no other. -/
theorem acquire_free (hfree : key ∉ s.gate.inFlight) (id : ι) : s.acquire id key =
    (true, { (({ s with gate := ⟨s.gate.inFlight ++ [key], s.gate.broadcasts⟩ } : GateSession ι κ).release id).2 with
      guards := (({ s with gate := ⟨s.gate.inFlight ++ [key], s.gate.broadcasts⟩ } : GateSession ι κ).release
        id).2.guards.insert id key }) := by
  have hgate := Gate.acquire?_eq_some.2 ⟨hfree, rfl⟩
  simp only [acquire, hgate]

theorem acquire_taken (htaken : key ∈ s.gate.inFlight) (id : ι) : s.acquire id key = (false, s) := by
  simp only [acquire, Gate.acquire?_eq_none.2 htaken]

theorem acquire_eq_true : (s.acquire id key).1 = true ↔ key ∉ s.gate.inFlight := by
  by_cases hkey : key ∈ s.gate.inFlight
  · simp [acquire_taken hkey, hkey]
  · simp [acquire_free hkey, hkey]

theorem get?_acquire (hfree : key ∉ s.gate.inFlight) (id id' : ι) :
    (s.acquire id key).2.guards.get? id' = if id' = id then some key else s.guards.get? id' := by
  rw [acquire_free hfree]
  simp only [Dict.get?_insert, get?_release]
  split <;> rfl

/-- The guard that is given is registered, and one of the same name is dropped. -/
theorem mem_acquire (hfree : key ∉ s.gate.inFlight) (id : ι) (key' : κ) :
    key' ∈ (s.acquire id key).2.gate.inFlight ↔
      (key' ∈ s.gate.inFlight ∨ key' = key) ∧ s.guards.get? id ≠ some key' := by
  rw [acquire_free hfree]
  simp only [mem_release, List.mem_append, List.mem_singleton]

theorem Guarded.release (h : s.Guarded) (id : ι) : (s.release id).2.Guarded where
  distinct := h.distinct.sublist (s.release_keeps id).2.1
  registry key := by
    simp only [mem_release, h.registry, get?_release]
    constructor
    · rintro ⟨⟨id', hguard⟩, hother⟩
      exact ⟨id', by rw [if_neg fun he : id' = id => hother (he ▸ hguard)]; exact hguard⟩
    · rintro ⟨id', hguard⟩
      split at hguard
      · cases hguard
      · rename_i hne
        -- Another guard, hence of another key.
        exact ⟨⟨id', hguard⟩, fun hkey => hne (h.single id' id key hguard hkey)⟩
  single id₁ id₂ key h₁ h₂ := by
    rw [get?_release] at h₁ h₂
    split at h₁
    · cases h₁
    · split at h₂
      · cases h₂
      · exact h.single id₁ id₂ key h₁ h₂

theorem Guarded.acquire (h : s.Guarded) (id : ι) (key : κ) : (s.acquire id key).2.Guarded := by
  by_cases htaken : key ∈ s.gate.inFlight
  · rw [acquire_taken htaken]
    exact h
  have hnone : ∀ id', s.guards.get? id' ≠ some key := fun id' hguard => htaken ((h.registry key).2 ⟨id', hguard⟩)
  refine ⟨?_, fun key' => ?_, fun id₁ id₂ key' h₁ h₂ => ?_⟩
  · rw [acquire_free htaken]
    refine List.Nodup.sublist (release_keeps _ id).2.1 (List.nodup_append.2 ⟨h.distinct, by simp, ?_⟩)
    intro a ha b hb he
    exact htaken (List.mem_singleton.1 hb ▸ he ▸ ha)
  · rw [mem_acquire htaken, h.registry]
    simp only [get?_acquire htaken]
    constructor
    · rintro ⟨⟨id', hguard⟩ | rfl, hother⟩
      · exact ⟨id', by rw [if_neg fun he : id' = id => hother (he ▸ hguard)]; exact hguard⟩
      · exact ⟨id, if_pos rfl⟩
    · rintro ⟨id', hguard⟩
      split at hguard
      · rw [← Option.some.inj hguard]
        exact ⟨.inr rfl, hnone id⟩
      · rename_i hne
        exact ⟨.inl ⟨id', hguard⟩, fun hkey => hne (h.single id' id key' hguard hkey)⟩
  · rw [get?_acquire htaken] at h₁ h₂
    split at h₁ <;> split at h₂
    · rename_i he₁ he₂
      rw [he₁, he₂]
    · exact (hnone id₂ (h₂.trans h₁.symm)).elim
    · exact (hnone id₁ (h₁.trans h₂.symm)).elim
    · exact h.single id₁ id₂ key' h₁ h₂

theorem acquire_keeps (s : GateSession ι κ) (id : ι) (key : κ) :
    (s.acquire id key).2.waiters = s.waiters ∧ s.gate.Later (s.acquire id key).2.gate := by
  by_cases htaken : key ∈ s.gate.inFlight
  · rw [acquire_taken htaken]
    exact ⟨rfl, .refl _⟩
  · obtain ⟨hwaiters, -, hlater⟩ :=
      ({ s with gate := ⟨s.gate.inFlight ++ [key], s.gate.broadcasts⟩ } : GateSession ι κ).release_keeps id
    rw [acquire_free htaken]
    exact ⟨hwaiters, (Gate.later_acquired ..).trans hlater⟩

/-- What an action makes of the guards: one comes or goes, and the others stay. -/
theorem get?_perform (s : GateSession ι κ) (a : GateAction ι κ) (id' : ι) :
    (s.perform a).2.guards.get? id' = match a with
      | .acquire id key => if id' = id ∧ key ∉ s.gate.inFlight then some key else s.guards.get? id'
      | .release id => if id' = id then none else s.guards.get? id'
      | _ => s.guards.get? id' := by
  cases a with
  | acquire id key =>
    by_cases htaken : key ∈ s.gate.inFlight
    · simp only [perform, acquire_taken htaken, htaken, not_true_eq_false, and_false, if_false]
    · simp only [perform, get?_acquire htaken, htaken, not_false_eq_true, and_true]
  | release id => exact s.get?_release id id'
  | wait | cancel => rfl

/-- What an action makes of the registry: a key that is free is taken, the key
of a guard that goes is given back, and the others stay as they are. -/
theorem mem_perform (s : GateSession ι κ) (a : GateAction ι κ) (key' : κ) :
    key' ∈ (s.perform a).2.gate.inFlight ↔ match a with
      | .acquire id key =>
        if key ∈ s.gate.inFlight then key' ∈ s.gate.inFlight
        else (key' ∈ s.gate.inFlight ∨ key' = key) ∧ s.guards.get? id ≠ some key'
      | .release id => key' ∈ s.gate.inFlight ∧ s.guards.get? id ≠ some key'
      | _ => key' ∈ s.gate.inFlight := by
  cases a with
  | acquire id key =>
    by_cases htaken : key ∈ s.gate.inFlight
    · simp only [perform, acquire_taken htaken, htaken, if_true]
    · simp only [perform, mem_acquire htaken, htaken, if_false]
  | release id => exact mem_release
  | wait | cancel => exact .rfl

/-- A poll leaves the gate and the guards as they are. -/
theorem next_keeps (s : GateSession ι κ) (t : GateStep ι κ) :
    (s.next t).gate = (s.perform t.action).2.gate ∧ (s.next t).guards = (s.perform t.action).2.guards := by
  rw [next]
  split <;> exact ⟨rfl, rfl⟩

/-! ## Waiters -/

theorem waits_perform (s : GateSession ι κ) (a : GateAction ι κ) : (s.perform a).2.waits =
    match a with
    | .wait id awaited => s.waits ++ [(id, awaited)]
    | .cancel id => s.waits.filter (·.1 ≠ id)
    | _ => s.waits := by
  cases a with
  | acquire id key => exact congrArg (List.map _) (s.acquire_keeps id key).1
  | release id => exact congrArg (List.map _) (s.release_keeps id).1
  | wait id awaited => exact List.map_append
  | cancel id =>
    simp only [perform, cancel, waits, List.filter_map]
    rfl

theorem Reached.perform (h : s.Reached) (a : GateAction ι κ) : (s.perform a).2.Reached := by
  cases a with
  | acquire id key =>
    obtain ⟨hwaiters, hlater⟩ := s.acquire_keeps id key
    exact ⟨h.guarded.acquire id key, fun w hw => (h.sound w (hwaiters ▸ hw)).later hlater⟩
  | release id =>
    obtain ⟨hwaiters, -, hlater⟩ := s.release_keeps id
    exact ⟨h.guarded.release id, fun w hw => (h.sound w (hwaiters ▸ hw)).later hlater⟩
  | wait id awaited =>
    refine ⟨⟨h.guarded.distinct, h.guarded.registry, h.guarded.single⟩, fun w hw => ?_⟩
    rcases List.mem_append.1 hw with hw | hw
    · exact h.sound w hw
    · rw [List.mem_singleton.1 hw]
      -- It has not looked yet, so it missed nothing.
      exact fun n hn => by cases hn
  | cancel id =>
    exact ⟨⟨h.guarded.distinct, h.guarded.registry, h.guarded.single⟩, fun w hw => h.sound w (List.mem_filter.1 hw).1⟩

/-- **A poll misses nobody and wakes nobody in vain**: done are those for
which what they wait for has come, and the others wait on. -/
theorem Reached.settle (h : s.Reached) :
    s.settle.1 = (s.waits.filter fun w => w.2.holds s.gate).map (·.1) ∧
      s.settle.2.waits = s.waits.filter (fun w => !w.2.holds s.gate) ∧ s.settle.2.Reached := by
  refine ⟨?_, Waiter.waits_polled h.sound, ⟨h.guarded.distinct, h.guarded.registry, h.guarded.single⟩, fun w hw => ?_⟩
  · rw [waits, List.filter_map, List.map_map]
    refine congrArg (List.map _) (List.filter_congr fun w hw => ?_)
    exact (h.sound w hw).poll_isNone
  · obtain ⟨w', hw', hpolled⟩ := List.mem_filterMap.1 hw
    obtain ⟨p, hpoll, rfl⟩ := Option.map_eq_some_iff.1 hpolled
    exact ((h.sound w' hw').of_poll hpoll).1

theorem Reached.next (h : s.Reached) (t : GateStep ι κ) : (s.next t).Reached := by
  unfold GateSession.next
  split
  · exact (h.perform t.action).settle.2.2
  · exact h.perform t.action

theorem Reached.empty : (empty : GateSession ι κ).Reached where
  guarded := ⟨.nil, fun key => by simp [GateSession.empty, Gate.empty], fun id id' key h => by cases h⟩
  sound w hw := by cases hw

theorem Reached.after (h : s.Reached) (run : List (GateStep ι κ)) : (s.after run).Reached := by
  induction run generalizing s with
  | nil => exact h
  | cons t run ih => exact ih (h.next t)

/-- **Gate and waiters.** Whatever is asked of a gate, in whichever order and
polled or not, the registry holds the keys of the guards, each of one guard,
and a key is given exactly if it has none. An acquisition that succeeds adds
its guard and its key, in the place of a guard of the same name; a release
takes its guard and its key away, if there is one; all other guards and keys
stay through every step. A poll reports those waiters done for which what they
wait for has come by then, be it a key or all keys, and no others; those that it
leaves wait with reason. Waiters come by their own wish and leave when they are
done or cancelled, and who is cancelled leaves nothing else changed. -/
theorem waits_end_when_due (run : List (GateStep ι κ)) (t : GateStep ι κ) :
    let s := (empty : GateSession ι κ).after run
    let polled := (s.perform t.action).2
    s.Guarded ∧
    (∀ id key, ((s.acquire id key).1 = true ↔ ∀ id', s.guards.get? id' ≠ some key) ∧
      ((s.acquire id key).1 = true → (s.acquire id key).2.guards.get? id = some key)) ∧
    (∀ id, (s.release id).1 = (s.guards.get? id).isSome) ∧
    (∀ id', (s.next t).guards.get? id' = match t.action with
      | .acquire id key => if id' = id ∧ key ∉ s.gate.inFlight then some key else s.guards.get? id'
      | .release id => if id' = id then none else s.guards.get? id'
      | _ => s.guards.get? id') ∧
    (∀ key', key' ∈ (s.next t).gate.inFlight ↔ match t.action with
      | .acquire id key =>
        if key ∈ s.gate.inFlight then key' ∈ s.gate.inFlight
        else (key' ∈ s.gate.inFlight ∨ key' = key) ∧ s.guards.get? id ≠ some key'
      | .release id => key' ∈ s.gate.inFlight ∧ s.guards.get? id ≠ some key'
      | _ => key' ∈ s.gate.inFlight) ∧
    polled.waits = (match t.action with
      | .wait id awaited => s.waits ++ [(id, awaited)]
      | .cancel id => s.waits.filter (·.1 ≠ id)
      | _ => s.waits) ∧
    s.finished t = (if t.settled then (polled.waits.filter fun w => w.2.Due polled.gate).map (·.1) else []) ∧
    (s.next t).waits = (if t.settled then polled.waits.filter fun w => ¬ w.2.Due polled.gate else polled.waits) ∧
    (t.settled = true → ∀ w ∈ (s.next t).waits, ¬ w.2.Due (s.next t).gate) ∧
    ∀ id, (s.perform (.cancel id)).2 = { s with waiters := s.waiters.filter (·.1 ≠ id) } := by
  intro s polled
  have hs : s.Reached := Reached.empty.after run
  obtain ⟨hdone, hleft, -⟩ := (hs.perform t.action).settle
  obtain ⟨hgate, hguards⟩ := s.next_keeps t
  refine ⟨hs.guarded, fun id key => ⟨?_, fun hgiven => ?_⟩, s.release_fst, fun id' => ?_, fun key' => ?_,
    s.waits_perform t.action, ?_, ?_, fun hsettled w hw => ?_, fun id => rfl⟩
  · rw [acquire_eq_true, hs.guarded.registry, not_exists]
  · rw [get?_acquire (acquire_eq_true.1 hgiven), if_pos rfl]
  · rw [hguards, get?_perform]
  · rw [hgate, mem_perform]
  · simp only [Awaited.decide_due]
    rw [finished, hdone]
  · simp only [decide_not, Awaited.decide_due]
    rw [next]
    split
    · exact hleft
    · rfl
  · rw [hgate]
    rw [next, if_pos hsettled, hleft] at hw
    rw [← Awaited.holds_iff_due]
    simpa using (List.mem_filter.1 hw).2

/-- A key that is given back and taken again between two polls keeps its
waiter waiting; the other waiter leaves when it is given back for good. -/
example : ((empty : GateSession Nat Nat).after
    [⟨.acquire 0 7, true⟩, ⟨.wait 1 (.released 7), true⟩, ⟨.release 0, false⟩, ⟨.acquire 0 7, false⟩,
      ⟨.wait 2 .idle, true⟩]).waits = [(1, .released 7), (2, .idle)] := by decide

end GateSession

end FizzService
