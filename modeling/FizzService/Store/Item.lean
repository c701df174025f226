/-
A stored value and the instant from which it counts as expired. Items are never changed: writing
a key again puts a new item in place of the old one.
-/
import FizzService.Time

namespace FizzService

structure Item (ν : Type) where
  value : ν
  expiresAt : Instant
deriving DecidableEq, Repr

namespace Item

variable {ν : Type}

/-- An item written at `now`; its lifetime is cut to a century. -/
def write (now : Instant) (lifetime : Duration) (value : ν) : Item ν :=
  ⟨value, now + min lifetime Duration.century⟩

/-- An item expires at its instant, not after it. -/
def isExpired (i : Item ν) (now : Instant) : Bool := i.expiresAt ≤ now

/-- How long an item has been expired, zero while it is fresh. -/
def staleFor (i : Item ν) (now : Instant) : Duration := now - i.expiresAt

/-- How long an item stays fresh, zero once it is expired. -/
def timeLeft (i : Item ν) (now : Instant) : Duration := i.expiresAt - now

end Item

end FizzService
