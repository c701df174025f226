/-
The keys that wait to be computed anew, first come, first served. A key stands in line at most
once, and a key that comes to a full line is turned away.
-/
import FizzService.CacheKey

namespace FizzService

structure RefreshQueue where
  capacity : Nat
  /-- The keys in line, the first to leave first. -/
  line : List CacheKey
  /-- The texts of the keys in line. -/
  marks : List String

namespace RefreshQueue

/-- The longest line that can be set up: the greatest number of 61 bits. -/
def longest : Nat := 2305843009213693951

/-- An empty line for at least one key; none for more keys than a line can hold. -/
def new? (capacity : Nat) : Option RefreshQueue :=
  if max capacity 1 ≤ longest then some ⟨max capacity 1, [], []⟩ else none

def isQueued (q : RefreshQueue) (key : CacheKey) : Bool := q.marks.contains key.text

/-- The number of keys in line. -/
def pending (q : RefreshQueue) : Nat := q.marks.length

/-- Puts a key at the end of the line, unless it stands there already or the line is full. -/
def enqueue (q : RefreshQueue) (key : CacheKey) : Bool × RefreshQueue :=
  if q.isQueued key then (false, q)
  else if q.capacity ≤ q.line.length then (false, q)
  else (true, { q with line := q.line ++ [key], marks := q.marks ++ [key.text] })

/-- Takes the key at the head of the line. -/
def dequeue (q : RefreshQueue) : Option CacheKey × RefreshQueue :=
  match q.line with
  | key :: rest => (some key, { q with line := rest, marks := q.marks.erase key.text })
  | [] => (none, q)

end RefreshQueue

end FizzService
