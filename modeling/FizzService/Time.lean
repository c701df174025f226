/-
Time as the service keeps it: instants and durations are whole nanoseconds, so every boundary is
exact and no sum overflows. Who sleeps is woken by a timer, which may have a reach of its own.
-/
namespace FizzService

/-- A length of time, in nanoseconds. -/
abbrev Duration := Nat

/-- A point of time, in nanoseconds after the clock started. -/
abbrev Instant := Nat

namespace Duration

def perSecond : Duration := 1000000000

def ofSeconds (s : Nat) : Duration := s * perSecond

def ofMillis (ms : Nat) : Duration := ms * 1000000

/-- The whole seconds of a duration. -/
def seconds (d : Duration) : Nat := d / perSecond

/-- What a duration holds beyond its whole seconds. -/
def nanos (d : Duration) : Nat := d % perSecond

theorem seconds_nanos (d : Duration) : ofSeconds d.seconds + d.nanos = d := by
  simp only [ofSeconds, seconds, nanos]
  exact Nat.div_add_mod' d perSecond

theorem seconds_ofSeconds (s : Nat) : (ofSeconds s).seconds = s := Nat.mul_div_cancel s (by decide)

theorem nanos_ofSeconds (s : Nat) : (ofSeconds s).nanos = 0 := Nat.mul_mod_left s perSecond

/-- Years of 365 days. -/
def ofYears (y : Nat) : Duration := ofSeconds (y * 365 * 24 * 60 * 60)

/-- The longest lifetime and the longest stale window honoured. -/
def century : Duration := ofYears 100

end Duration

/-- A timer, told by when it wakes those who sleep. A sleep lasts for some time, and for no longer
than it was asked to; a timer whose reach is limited may cut a sleep short that goes beyond it. -/
structure Timer where
  /-- When a sleep of the given length ends that begins at the given time. -/
  wake : Instant → Duration → Instant
  lt_wake : ∀ now length, 0 < length → now < wake now length
  wake_le : ∀ now length, wake now length ≤ now + length

/-- The timer with no limit to its reach: every sleep lasts as long as it was asked to. -/
def Timer.exact : Timer where
  wake now length := now + length
  lt_wake _ _ := Nat.lt_add_of_pos_right
  wake_le _ _ := Nat.le_refl _

end FizzService
