/-
What a drain can tell. It asks the gate whether a key is in flight, and the
gate has the owners' computations on record, those of fetches and of refreshes,
and no others (`Owned.isIdle_iff`): a drain that succeeds says that no owner
computes, and is silent about fetches that compute on their own
(`drain_watches_owners`). One of these may well be open then
(`drain_overlooks_lone_fetch`).

A drain does what the passing of time does, and nothing else
(`SweepAhead.drain_eq_advance`).
-/
import FizzService.Proofs.Cache.Fields
import FizzService.Proofs.Cache.Ownership

namespace FizzService

namespace Session

/-- The sweep is not overdue, and sleeps for some time whenever it does. -/
def SweepAhead (s : Session) : Prop := ∀ sweep, s.sweep = some sweep → s.now < sweep.due ∧ 0 < sweep.interval

variable {s : Session}

/-! ## The sweep -/

theorem SweepAhead.later {time : Duration} {sweep : Sweep} (h : s.SweepAhead)
    (hs : s.sweep.map (Sweep.later (s.now + time)) = some sweep) :
    s.now + time < sweep.due ∧ 0 < sweep.interval := by
  obtain ⟨former, hformer, rfl⟩ := Option.map_eq_some_iff.1 hs
  obtain ⟨-, hinterval⟩ := h former hformer
  unfold Sweep.later
  split
  · exact ⟨(Sweep.due_asleep former.timer hinterval _).1, hinterval⟩
  · rename_i hdue
    exact ⟨Nat.lt_of_not_le hdue, hinterval⟩

theorem SweepAhead.perform (h : s.SweepAhead) (a : Action) : (s.perform a).2.SweepAhead := by
  intro sweep hs
  rw [sweep_perform] at hs
  rw [now_perform]
  cases a with
  | advance time => exact h.later hs
  | drain time =>
    simp only at hs ⊢
    split at hs
    · rename_i hidle
      rw [if_pos hidle]
      exact h sweep hs
    · rename_i hbusy
      rw [if_neg hbusy]
      exact h.later hs
  | startSweep timer interval =>
    have hsecond : 0 < max interval (Duration.ofSeconds 1) :=
      Nat.lt_of_lt_of_le (by decide) (Nat.le_max_right ..)
    cases hs
    exact ⟨(Sweep.due_asleep timer hsecond _).1, hsecond⟩
  | stopSweep => cases hs
  | _ => exact h sweep hs

theorem SweepAhead.settle (h : s.SweepAhead) : s.settle.2.SweepAhead := by
  intro sweep hs
  rw [s.settle_polled.alike.sweep] at hs
  rw [now_settle]
  exact h sweep hs

theorem SweepAhead.new {config : CacheConfig} (h : Session.new config = .ok s) : s.SweepAhead := by
  obtain ⟨-, queue, rfl⟩ := new_eq_ok h
  exact fun sweep hs => by cases hs

theorem SweepAhead.after (h : s.SweepAhead) (run : List Step) : (s.after run).SweepAhead :=
  after_induction h (fun _ a hs => hs.perform a) (fun _ hs => hs.settle) run

/-! ## The passing of time -/

/-- Until the sweep is due, time passes and nothing else happens. -/
theorem advance_of_not_due {time : Duration} (h : ∀ sweep, s.sweep = some sweep → s.now + time < sweep.due) :
    s.advance time = { s with now := s.now + time } := by
  unfold advance sweepIfDue
  cases hs : s.sweep with
  | none => rfl
  | some sweep => exact if_neg (Nat.not_le.2 (h sweep hs))

theorem SweepAhead.advance_zero (h : s.SweepAhead) : s.advance 0 = s :=
  advance_of_not_due fun sweep hs => (h sweep hs).1

/-- A drain that succeeds takes no time, and one that fails takes all the time
it was given; what it makes of a session is what the passing of that time
makes of it. -/
theorem SweepAhead.drain_eq_advance (h : s.SweepAhead) (time : Duration) :
    (s.drain time).2 = s.advance (if (s.drain time).1 then 0 else time) := by
  unfold drain
  cases s.cache.gate.isIdle with
  | true => exact h.advance_zero.symm
  | false => rfl

/-! ## The registry -/

theorem Purpose.role_eq_owner_iff {p : Purpose} : p.role = .owner ↔ p ≠ .alone := by
  cases p <;> simp [Purpose.role]

/-- The gate is idle exactly if no owner's computation is open. -/
theorem Owned.isIdle_iff (h : s.Owned) :
    s.cache.gate.isIdle = true ↔ ∀ job ∈ s.running, job.purpose = .alone := by
  rw [Gate.isIdle, List.isEmpty_iff, h.registry, owned, List.map_eq_nil_iff, List.filter_eq_nil_iff]
  refine forall₂_congr fun job _ => ?_
  rw [decide_eq_true_eq, Purpose.role_eq_owner_iff, Decidable.not_not]

theorem Owned.drain_fst (h : s.Owned) (time : Duration) :
    (s.drain time).1 = true ↔ ∀ job ∈ s.running, job.purpose = .alone := by
  rw [← h.isIdle_iff, drain]
  cases s.cache.gate.isIdle <;> simp

/-- **What a drain tells**, in every state that a cache comes to and for every
time it is given. It succeeds exactly if the computations that are open, those
whose callers have left among them, are all of fetches that compute on their
own; where there are none of these, its success means that nothing is open.
It makes of the session what the passing of some time makes of it, no more than
it was given, and only a sweep that comes due meanwhile changes more than the
time. -/
theorem drain_watches_owners {config : CacheConfig} {s₀ : Session} (h : Session.new config = .ok s₀)
    (run : List Step) (time : Duration) :
    (((s₀.after run).drain time).1 = true ↔ ∀ job ∈ (s₀.after run).running, job.purpose = .alone) ∧
    ((∀ job ∈ (s₀.after run).running, job.purpose ≠ .alone) → ((s₀.after run).drain time).1 = true →
      ((s₀.after run).drain time).2.running = []) ∧
    ∃ passed ≤ time, ((s₀.after run).drain time).2 = (s₀.after run).advance passed ∧
      ((∀ sweep, (s₀.after run).sweep = some sweep → (s₀.after run).now + passed < sweep.due) →
        ((s₀.after run).drain time).2 = { s₀.after run with now := (s₀.after run).now + passed }) := by
  have howned := (Owned.new h).after run
  have hpassed := ((SweepAhead.new h).after run).drain_eq_advance time
  refine ⟨howned.drain_fst time, fun hnone htrue => ?_, ?_⟩
  · have halone := (howned.drain_fst time).1 htrue
    rw [hpassed, (advance_keeps ..).2.2.1, List.eq_nil_iff_forall_not_mem]
    exact fun job hjob => hnone job hjob (halone job hjob)
  · refine ⟨if ((s₀.after run).drain time).1 then 0 else time, ?_, hpassed, fun hdue => ?_⟩
    · split
      · exact Nat.zero_le time
      · exact Nat.le_refl time
    · exact hpassed.trans (advance_of_not_due hdue)

/-- While a fetch computes for all, a drain fails and takes its time; once that
computation has ended, it succeeds and nothing is open. -/
theorem drain_watches_owners_small : Session.new .small = .ok .small ∧
    ((small.after [⟨.fetch "a" default (fun _ => .crash) true, true⟩]).drain 5).1 = false ∧
    (∃ passed ≤ 5, ((small.after [⟨.fetch "a" default (fun _ => .crash) true, true⟩]).drain 5).2 =
      (small.after [⟨.fetch "a" default (fun _ => .crash) true, true⟩]).advance passed) ∧
    ((small.after [⟨.fetch "a" default (fun _ => .crash) true, true⟩, ⟨.finish "a", true⟩]).drain 5).1 = true ∧
    ((small.after [⟨.fetch "a" default (fun _ => .crash) true, true⟩, ⟨.finish "a", true⟩]).drain 5).2.running =
      [] := by
  obtain ⟨-, -, passed, hle, hpassed, -⟩ :=
    drain_watches_owners new_small [⟨.fetch "a" default (fun _ => .crash) true, true⟩] 5
  obtain ⟨-, hquiet, -⟩ :=
    drain_watches_owners new_small [⟨.fetch "a" default (fun _ => .crash) true, true⟩, ⟨.finish "a", true⟩] 5
  exact ⟨new_small, rfl, ⟨passed, hle, hpassed⟩, rfl, hquiet (fun _ hjob => by cases hjob) rfl⟩

/-- An oversized body is on record, so a fetch computes on its own: a drain
succeeds while that computation is open. -/
theorem drain_overlooks_lone_fetch : Session.new .small = .ok .small ∧
    ((small.after [⟨.set default ⟨.replicate 65 7⟩, true⟩,
      ⟨.fetch "a" default (fun _ => .crash) true, true⟩]).drain 5).1 = true ∧
    ((small.after [⟨.set default ⟨.replicate 65 7⟩, true⟩,
      ⟨.fetch "a" default (fun _ => .crash) true, true⟩]).drain 5).2.running.map (·.id) = ["a"] :=
  ⟨new_small, rfl, rfl⟩

end Session

end FizzService
