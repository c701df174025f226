/-
The two stores of the cache: bodies of an accepted size are entries, empty and oversized ones are
negative results. A key is in one of them at most: a write to one removes it from the other.
-/
import FizzService.Store.Bounded

namespace FizzService

/-- A result that is no ordinary body. Of an oversized one only the existence matters: its bytes
are never served. -/
inductive Negative where
  | empty
  | oversized (payload : ByteArray)

namespace Negative

def payload : Negative → ByteArray
  | empty => .empty
  | oversized bytes => bytes

/-- Whether the body has to be computed anew each time. -/
def ignoresCache : Negative → Bool
  | empty => false
  | oversized _ => true

/-- The negative result that a body amounts to when at most `accepted` bytes are accepted. -/
def ofBody? (accepted : Nat) (body : ByteArray) : Option Negative :=
  if body.size = 0 then some .empty
  else if body.size > accepted then some (.oversized body)
  else none

end Negative

structure Stores where
  entries : Store String ByteArray
  negatives : Store String Negative

/-- What a fetch finds on record for a key. -/
inductive Finding where
  | entry (body : ByteArray) (expired : Bool)
  | negative (record : Negative)
  | nothing

namespace Stores

/-- Looks a key up for a fetch. An expired entry is still found; an expired negative result is
removed. -/
def find (s : Stores) (now : Instant) (k : String) : Finding × Stores :=
  match s.entries.get now k with
  | (some r, entries) => (.entry r.value r.expired, { s with entries := entries })
  | (none, entries) =>
    match s.negatives.get now k with
    | (some r, negatives) =>
      if r.expired then (.nothing, ⟨entries, (negatives.delete k).2⟩)
      else (.negative r.value, ⟨entries, negatives⟩)
    | (none, negatives) => (.nothing, ⟨entries, negatives⟩)

/-- The body that can be served for a key without computing it, be it fresh or stale. -/
def get (s : Stores) (now : Instant) (k : String) : Option ByteArray × Stores :=
  match s.entries.get now k with
  | (some r, entries) => (some r.value, { s with entries := entries })
  | (none, entries) =>
    match s.negatives.get now k with
    | (some r, negatives) =>
      (if r.expired || r.value.ignoresCache then none else some r.value.payload,
        ⟨entries, negatives⟩)
    | (none, negatives) => (none, ⟨entries, negatives⟩)

/-- Files a body under a key in the store that its size calls for. -/
def put (s : Stores) (now : Instant) (accepted : Nat) (k : String) (body : ByteArray) : Stores :=
  match Negative.ofBody? accepted body with
  | some record => ⟨(s.entries.delete k).2, s.negatives.set now k record none⟩
  | none => ⟨s.entries.set now k body none, (s.negatives.delete k).2⟩

/-- Removes a key from both stores, and tells whether it was in one. -/
def invalidate (s : Stores) (k : String) : Bool × Stores :=
  ((s.entries.delete k).1 || (s.negatives.delete k).1,
    ⟨(s.entries.delete k).2, (s.negatives.delete k).2⟩)

/-- Removes the entries that have been stale for `maxStale` and the expired negative results. -/
def purge (s : Stores) (now : Instant) (maxStale : Duration) : Nat × Stores :=
  ((s.entries.purge now maxStale).1 + (s.negatives.purge now 0).1,
    ⟨(s.entries.purge now maxStale).2, (s.negatives.purge now 0).2⟩)

/-- Whether a negative result is on record, and whether it demands a new computation. -/
def negativeFlag (s : Stores) (now : Instant) (k : String) : Option Bool × Stores :=
  ((s.negatives.get now k).1.map (·.value.ignoresCache),
    { s with negatives := (s.negatives.get now k).2 })

end Stores

end FizzService
