/-
How long a record may outlive its expiry while the sweep runs. A look-up serves
an expired entry whatever its age, so the bound is the sweep's alone: once it
has woken, everything on record was young enough when it last woke or has been
written since (`SweptAt`), and it wakes again before an interval is over. An
entry has therefore been expired for less than the stale window and the interval
together, and a negative result for less than the interval (`staleness_bounded`).

The invariant names the time of the last wake. A step moves that time forward if
the sweep wakes in it and leaves it otherwise (`sweeps_or_sleeps`); what is
written in between expires later than it is written.
-/
import FizzService.Proofs.Cache.Drain
import FizzService.Proofs.Cache.Filing

namespace FizzService

/-- Neither a start nor a stop of the sweep. -/
def Action.leavesSweep : Action → Bool
  | .startSweep .. | .stopSweep => false
  | _ => true

namespace Stores

/-- At the time `woken`, no entry on record was stale for `maxStale` and no
negative result was expired. -/
structure SweptAt (maxStale : Duration) (woken : Instant) (s : Stores) : Prop where
  entries : ∀ k i, s.entryAt k = some i → woken < i.expiresAt + maxStale
  negatives : ∀ k i, s.negativeAt k = some i → woken < i.expiresAt

variable {config : CacheConfig} {s t : Stores} {maxStale : Duration} {woken now : Instant}

/-- A purge leaves nothing that is too old. -/
theorem Sound.sweptAt_purge (h : s.Sound config) (now : Instant) (maxStale : Duration) :
    (s.purge now maxStale).2.SweptAt maxStale now := by
  constructor
  · intro k i hi
    have hkept := (Store.get?_purge h.entries.nodup now maxStale k).symm.trans hi
    exact Item.kept_iff.1 (Option.filter_eq_some_iff.1 hkept).2
  · intro k i hi
    have hkept := (Store.get?_purge h.negatives.nodup now 0 k).symm.trans hi
    exact Item.kept_iff.1 (Option.filter_eq_some_iff.1 hkept).2

theorem SweptAt.of_within (h : s.SweptAt maxStale woken) (ht : t.Within s) : t.SweptAt maxStale woken where
  entries k i hi := h.entries k i ((ht k).entry i hi)
  negatives k i hi := h.negatives k i ((ht k).negative i hi)

/-- An item expires after the time at which it is written. -/
theorem expiresAt_write {ν : Type} {lifetime : Duration} (h : 0 < lifetime) (now : Instant) (v : ν) :
    now < (Item.write now lifetime v).expiresAt := by
  have hfresh := isExpired_write h now v
  simp only [Item.isExpired, decide_eq_false_iff_not] at hfresh
  exact Nat.lt_of_not_le hfresh

theorem SweptAt.put (h : s.SweptAt maxStale woken) (hs : s.Sound config) (he : 0 < config.entryTtl)
    (hn : 0 < config.negativeTtl) (hpast : woken ≤ now) (k : String) (body : ByteArray) :
    (s.put now config.maxAcceptedBytes.toNat k body).SweptAt maxStale woken := by
  have hself := s.put_self now config.maxAcceptedBytes.toNat k body
  have hother := fun k' (hk : k' ≠ k) => s.put_other now config.maxAcceptedBytes.toNat body hk
  rw [show s.entries.lifetime = config.entryTtl from congrArg (·.2.2) hs.entrySettings,
    show s.negatives.lifetime = config.negativeTtl from congrArg (·.2.2) hs.negativeSettings] at hself
  constructor
  · intro k' i hi
    by_cases hk : k' = k
    · subst hk
      split at hself
      · cases hself.1.symm.trans hi
      · cases hself.1.symm.trans hi
        exact Nat.lt_add_right maxStale (Nat.lt_of_le_of_lt hpast (expiresAt_write he now body))
    · exact h.entries k' i ((hother k' hk).entry i hi)
  · intro k' i hi
    by_cases hk : k' = k
    · subst hk
      split at hself
      · rename_i record _
        cases hself.2.symm.trans hi
        exact Nat.lt_of_le_of_lt hpast (expiresAt_write hn now record)
      · cases hself.2.symm.trans hi
    · exact h.negatives k' i ((hother k' hk).negative i hi)

theorem SweptAt.apply (h : s.SweptAt maxStale woken) (hs : s.Sound config) (he : 0 < config.entryTtl)
    (hn : 0 < config.negativeTtl) (hpast : woken ≤ now) (a : Access) :
    (a.apply config now s).SweptAt maxStale woken := by
  cases a with
  | find key => exact h.of_within (s.find_within now key.text)
  | get key => exact h.of_within (s.get_within now key.text)
  | flag key => exact h.of_within (s.negativeFlag_within now key.text)
  | put key body => exact h.put hs he hn hpast key.text body
  | remove key => exact h.of_within (s.invalidate_within key.text)
  | purge => exact h.of_within (s.purge_within now config.maxStale)

theorem SweptAt.replay (h : s.SweptAt maxStale woken) (hs : s.Sound config) (he : 0 < config.entryTtl)
    (hn : 0 < config.negativeTtl) (hpast : woken ≤ now) (accesses : List Access) :
    (s.replay config now accesses).SweptAt maxStale woken := by
  induction accesses generalizing s with
  | nil => exact h
  | cons a accesses ih => exact ih (h.apply hs he hn hpast a) (hs.apply now a)

end Stores

namespace Session

/-- The sweep wakes in the step `t`: it is due by the end of it. -/
def Wakes (s : Session) (t : Step) : Prop := ∃ sweep, s.sweep = some sweep ∧ sweep.due ≤ (s.next t).now

/-- The sweep wakes in some step of a run. -/
def WakesIn (s : Session) : List Step → Prop
  | [] => False
  | t :: run => s.Wakes t ∨ (s.next t).WakesIn run

/-- The sweep last woke at the time `woken` and sleeps since, and what is on
record has been swept then or is newer. -/
structure SweptAt (timer : Timer) (interval : Duration) (woken : Instant) (s : Session) : Prop where
  sleeps : s.sweep = some (.asleep timer interval woken)
  past : woken ≤ s.now
  ahead : s.now < (Sweep.asleep timer interval woken).due
  stores : s.cache.stores.SweptAt s.cache.config.maxStale woken

variable {s : Session} {sweep : Sweep} {timer : Timer} {interval : Duration} {woken : Instant}

/-! ## One step -/

theorem now_next (s : Session) (t : Step) : (s.next t).now = (s.perform t.action).2.now := by
  rw [next_eq]
  split
  · exact now_settle _
  · rfl

theorem sweep_next (s : Session) (t : Step) : (s.next t).sweep = (s.perform t.action).2.sweep := by
  rw [next_eq]
  split
  · exact (settle_polled _).alike.sweep
  · rfl

/-- Time moves on and the sweep sleeps on, or it wakes, purges the stores and goes
to sleep anew. -/
theorem sweeps_or_sleeps_later (hsweep : s.sweep = some sweep) (time : Duration) :
    (s.now + time < sweep.due ∧ s.sweep.map (Sweep.later (s.now + time)) = some sweep) ∨
    (sweep.due ≤ s.now + time ∧ s.sweeps time = [.purge] ∧
      s.sweep.map (Sweep.later (s.now + time)) =
        some (.asleep sweep.timer sweep.interval (s.now + time))) := by
  simp only [sweeps, hsweep, Option.map_some, Sweep.later]
  by_cases hwakes : sweep.due ≤ s.now + time
  · exact .inr ⟨hwakes, if_pos hwakes, by rw [if_pos hwakes]⟩
  · exact .inl ⟨Nat.lt_of_not_le hwakes, by rw [if_neg hwakes]⟩

/-- An action either leaves the sweep asleep, or the sweep wakes and purges the
stores, and nothing else touches them. -/
theorem sweeps_or_sleeps (hsweep : s.sweep = some sweep) (hdue : s.now < sweep.due) {a : Action}
    (ha : a.leavesSweep = true) :
    ((s.perform a).2.sweep = some sweep ∧ s.now ≤ (s.perform a).2.now ∧ (s.perform a).2.now < sweep.due) ∨
    (sweep.due ≤ (s.perform a).2.now ∧ s.accesses a = [.purge] ∧
      (s.perform a).2.sweep = some (.asleep sweep.timer sweep.interval (s.perform a).2.now)) := by
  cases a with
  | startSweep timer interval | stopSweep => cases ha
  | advance time =>
    rw [sweep_perform, now_perform]
    rcases sweeps_or_sleeps_later hsweep time with ⟨hahead, hlater⟩ | hwakes
    · exact .inl ⟨hlater, Nat.le_add_right .., hahead⟩
    · exact .inr hwakes
  | drain time =>
    rw [sweep_perform, now_perform]
    simp only [accesses]
    cases s.cache.gate.isIdle with
    | true => exact .inl ⟨hsweep, Nat.le_refl _, hdue⟩
    | false =>
      rcases sweeps_or_sleeps_later hsweep time with ⟨hahead, hlater⟩ | hwakes
      · exact .inl ⟨hlater, Nat.le_add_right .., hahead⟩
      · exact .inr hwakes
  | _ =>
    rw [sweep_perform, now_perform]
    exact .inl ⟨hsweep, Nat.le_refl _, hdue⟩

/-- While the sweep sleeps, it stays as it is. -/
theorem sleeps_next (hsweep : s.sweep = some sweep) (hdue : s.now < sweep.due) {t : Step}
    (ht : t.action.leavesSweep = true) (hsleeps : ¬s.Wakes t) :
    (s.next t).sweep = some sweep ∧ s.now ≤ (s.next t).now ∧ (s.next t).now < sweep.due := by
  rw [sweep_next, now_next]
  rcases sweeps_or_sleeps hsweep hdue ht with hstays | ⟨hwakes, -, -⟩
  · exact hstays
  · exact absurd ⟨sweep, hsweep, by rwa [now_next]⟩ hsleeps

/-- When the sweep wakes, what is on record has been swept then. -/
theorem Orderly.sweptAt_next (h : s.Orderly) (hsweep : s.sweep = some sweep) (hdue : s.now < sweep.due)
    (hinterval : 0 < sweep.interval) {t : Step} (ht : t.action.leavesSweep = true) (hwakes : s.Wakes t) :
    (s.next t).SweptAt sweep.timer sweep.interval (s.next t).now := by
  obtain ⟨sweep', hsweep', hover⟩ := hwakes
  cases hsweep'.symm.trans hsweep
  rcases sweeps_or_sleeps hsweep hdue ht with ⟨-, -, hahead⟩ | ⟨-, hpurge, hlater⟩
  · rw [now_next] at hover
    exact absurd hahead (Nat.not_lt.2 hover)
  · refine ⟨by rw [sweep_next, now_next, hlater], Nat.le_refl _, (Sweep.due_asleep sweep.timer hinterval _).1, ?_⟩
    rw [stores_next, config_next, stepAccesses, hpurge]
    exact (h.stores.sweptAt_purge ..).replay (h.stores.purge ..) h.entryTtl h.negativeTtl (Nat.le_refl _) _

/-- When it does not, what is written is newer than what was swept. -/
theorem SweptAt.next (h : s.SweptAt timer interval woken) (hs : s.Orderly) {t : Step}
    (ht : t.action.leavesSweep = true) (hsleeps : ¬s.Wakes t) : (s.next t).SweptAt timer interval woken := by
  obtain ⟨hsweep, hpast, hahead⟩ := sleeps_next h.sleeps h.ahead ht hsleeps
  refine ⟨hsweep, Nat.le_trans h.past hpast, hahead, ?_⟩
  rw [stores_next, config_next]
  exact h.stores.replay hs.stores hs.entryTtl hs.negativeTtl (Nat.le_trans h.past hpast) _

/-! ## Whole runs -/

/-- What has been swept stays swept while the sweep runs, if only at a later time. -/
theorem SweptAt.after {run : List Step} (h : s.SweptAt timer interval woken) (hs : s.Orderly)
    (hinterval : 0 < interval) (hruns : ∀ t ∈ run, t.action.leavesSweep = true) :
    ∃ woken, (s.after run).SweptAt timer interval woken := by
  induction run generalizing s woken with
  | nil => exact ⟨woken, h⟩
  | cons t run ih =>
    have ht := hruns t List.mem_cons_self
    have hrest := fun t' ht' => hruns t' (List.mem_cons_of_mem t ht')
    by_cases hwakes : s.Wakes t
    · exact ih (hs.sweptAt_next h.sleeps h.ahead hinterval ht hwakes) (hs.next t) hrest
    · exact ih (h.next hs ht hwakes) (hs.next t) hrest

/-- Once the sweep has woken in a run, what is on record has been swept. -/
theorem Orderly.sweptAt_after {run : List Step} (h : s.Orderly) (hsweep : s.sweep = some sweep)
    (hdue : s.now < sweep.due) (hinterval : 0 < sweep.interval)
    (hruns : ∀ t ∈ run, t.action.leavesSweep = true) (hwakes : s.WakesIn run) :
    ∃ woken, (s.after run).SweptAt sweep.timer sweep.interval woken := by
  induction run generalizing s with
  | nil => cases hwakes
  | cons t run ih =>
    have ht := hruns t List.mem_cons_self
    have hrest := fun t' ht' => hruns t' (List.mem_cons_of_mem t ht')
    by_cases hnow : s.Wakes t
    · exact (h.sweptAt_next hsweep hdue hinterval ht hnow).after (h.next t) hinterval hrest
    · obtain ⟨hsweep', -, hdue'⟩ := sleeps_next hsweep hdue ht hnow
      exact ih (h.next t) hsweep' hdue' hrest (hwakes.resolve_left hnow)

/-- A sweep that has not woken in a run is not due at its end. -/
theorem sleeps_after {run : List Step} (hsweep : s.sweep = some sweep) (hdue : s.now < sweep.due)
    (hruns : ∀ t ∈ run, t.action.leavesSweep = true) (hsleeps : ¬s.WakesIn run) :
    (s.after run).now < sweep.due := by
  induction run generalizing s with
  | nil => exact hdue
  | cons t run ih =>
    obtain ⟨hnow, hlater⟩ := not_or.1 hsleeps
    obtain ⟨hsweep', -, hdue'⟩ := sleeps_next hsweep hdue (hruns t List.mem_cons_self) hnow
    exact ih hsweep' hdue' (fun t' ht' => hruns t' (List.mem_cons_of_mem t ht')) hlater

/-- An item has been expired for less than its grace and the time since the
sweep woke. -/
theorem staleFor_lt {ν : Type} {i : Item ν} {now : Instant} {grace : Duration}
    (hyoung : woken < i.expiresAt + grace) (hpast : woken ≤ now) (hahead : now < woken + interval) :
    i.staleFor now < grace + interval := by
  have harith : ∀ woken expiresAt grace now interval : Nat, woken < expiresAt + grace → woken ≤ now →
      now < woken + interval → now - expiresAt < grace + interval := by omega
  exact harith _ _ _ _ _ hyoung hpast hahead

/-- A sweep that is started with a number of seconds sleeps for as many, and for
one at least. -/
theorem startSweep_ofSeconds (s : Session) (timer : Timer) (secs : Nat) :
    (s.startSweep timer (.ofSeconds secs)).sweep = some (.asleep timer (.ofSeconds (max secs 1)) s.now) := by
  have hmax : max (Duration.ofSeconds secs) (Duration.ofSeconds 1) = Duration.ofSeconds (max secs 1) :=
    Nat.mul_max_mul_right ..
  rw [startSweep, hmax]

/-- **Staleness is bounded while the sweep runs.** Let a sweep be started at any
point of a run, with any timer, and neither stopped nor started anew from there.
As soon as it has woken, and after every step from then on, no entry on record
has been expired for as long as the stale window and the interval together, and
no negative result for as long as the interval. It has woken by the time an
interval is over. -/
theorem staleness_bounded {config : CacheConfig} {s₀ : Session} (h : Session.new config = .ok s₀)
    (before : List Step) (timer : Timer) (secs : Nat) (settled : Bool) (during : List Step)
    (hruns : ∀ t ∈ during, t.action.leavesSweep = true) :
    let started := (s₀.after before).next ⟨.startSweep timer (.ofSeconds secs), settled⟩
    let s := started.after during
    (started.WakesIn during →
      (∀ k i, s.cache.stores.entryAt k = some i →
        i.staleFor s.now < config.clamped.maxStale + .ofSeconds (max secs 1)) ∧
      ∀ k i, s.cache.stores.negativeAt k = some i → i.staleFor s.now < .ofSeconds (max secs 1)) ∧
    (started.now + Duration.ofSeconds (max secs 1) ≤ s.now → started.WakesIn during) := by
  intro started s
  have hpos : 0 < Duration.ofSeconds (max secs 1) :=
    Nat.mul_pos (Nat.lt_of_lt_of_le (by decide) (Nat.le_max_right ..)) (by decide)
  have hstarted : started.sweep = some (.asleep timer (.ofSeconds (max secs 1)) started.now) := by
    rw [sweep_next, now_next]
    exact startSweep_ofSeconds ..
  obtain ⟨hdue, hle⟩ := Sweep.due_asleep timer hpos started.now
  have horderly : started.Orderly := ((Orderly.new h).after before).next _
  have hconfig : s.cache.config = config.clamped := by
    obtain ⟨-, queue, rfl⟩ := new_eq_ok h
    exact (config_after ..).trans ((config_next ..).trans (config_after ..))
  constructor
  · intro hwakes
    obtain ⟨woken, hswept⟩ := horderly.sweptAt_after hstarted hdue hpos hruns hwakes
    have hahead : s.now < woken + Duration.ofSeconds (max secs 1) :=
      Nat.lt_of_lt_of_le hswept.ahead (Sweep.due_asleep timer hpos woken).2
    rw [← hconfig]
    refine ⟨fun k i hi => staleFor_lt (hswept.stores.entries k i hi) hswept.past hahead, fun k i hi => ?_⟩
    have hyoung : woken < i.expiresAt + 0 := hswept.stores.negatives k i hi
    exact Nat.lt_of_lt_of_eq (staleFor_lt hyoung hswept.past hahead) (Nat.zero_add _)
  · intro hlong
    refine Classical.byContradiction fun hsleeps => ?_
    have hshort := sleeps_after hstarted hdue hruns hsleeps
    exact absurd (Nat.lt_of_lt_of_le hshort hle) (Nat.not_lt.2 hlong)

/-- A sweep every five seconds wakes once in seventy, and leaves a body that has
been expired for ten. -/
theorem staleness_bounded_small :
    let started := (small.after [⟨.set default ⟨#[7]⟩, true⟩]).next ⟨.startSweep .exact (.ofSeconds 5), true⟩
    let during : List Step :=
      [⟨.advance (.ofSeconds 67), true⟩, ⟨.get default, true⟩, ⟨.advance (.ofSeconds 3), true⟩]
    Session.new .small = .ok .small ∧ (∀ t ∈ during, t.action.leavesSweep = true) ∧ started.WakesIn during ∧
      ∃ i, (started.after during).cache.stores.entryAt (CacheKey.ofParams default).text = some i ∧
        i.staleFor (started.after during).now = Duration.ofSeconds 10 ∧
        i.staleFor (started.after during).now < CacheConfig.small.clamped.maxStale + .ofSeconds (max 5 1) := by
  intro started during
  have hruns : ∀ t ∈ during, t.action.leavesSweep = true := by simp [during, Action.leavesSweep]
  have hbounded := staleness_bounded new_small [⟨.set default ⟨#[7]⟩, true⟩] .exact 5 true during hruns
  have hwakes : started.WakesIn during := hbounded.2 (by decide)
  have hentry : (started.after during).cache.stores.entryAt (CacheKey.ofParams default).text =
      some ⟨⟨#[7]⟩, Duration.ofSeconds 60⟩ := by decide
  subst started
  obtain ⟨hentries, -⟩ := hbounded.1 hwakes
  exact ⟨new_small, hruns, hwakes, _, hentry, by decide, hentries _ _ hentry⟩

end Session

end FizzService
