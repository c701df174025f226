/-
How often each set of parameters was asked for. The listing has the most frequent sets first;
sets of equal count stand in the order in which the map of the counts is gone through, of which
nothing is known.
-/
import FizzService.Dict
import FizzService.Json
import FizzService.Params

namespace FizzService

/-- The parameters by which requests are told apart; the form of the answer is none of them. -/
structure RequestLabels where
  limit : Nat
  nbOne : Nat
  nbTwo : Nat
  strOne : String
  strTwo : String
deriving DecidableEq, Repr

def Params.labels (p : Params) : RequestLabels := ⟨p.limit, p.nbOne, p.nbTwo, p.strOne, p.strTwo⟩

structure RequestCounter where
  counts : Dict RequestLabels Nat
  /-- How the map goes through its entries. -/
  traversal : Dict.Traversal RequestLabels Nat

namespace RequestCounter

def new (traversal : Dict.Traversal RequestLabels Nat) : RequestCounter := ⟨∅, traversal⟩

def get (c : RequestCounter) (p : Params) : Nat := (c.counts.get? p.labels).getD 0

/-- Counts one request. -/
def record (c : RequestCounter) (p : Params) : RequestCounter :=
  { c with counts := c.counts.insert p.labels (c.get p + 1) }

/-- Whether one row of the listing may stand before another. -/
def precedes (a b : RequestLabels × Nat) : Bool := b.2 ≤ a.2

/-- Every set that was asked for, with its count. The sort is stable. -/
def listing (c : RequestCounter) : List (RequestLabels × Nat) :=
  (c.traversal.list c.counts).mergeSort precedes

def row (r : RequestLabels × Nat) : Json :=
  .object
    [("limit", .whole r.1.limit), ("nb_one", .whole r.1.nbOne), ("nb_two", .whole r.1.nbTwo),
      ("str_one", .text r.1.strOne), ("str_two", .text r.1.strTwo), ("count", .whole r.2)]

/-- The report of the given rows. -/
def reportOf (rows : List (RequestLabels × Nat)) : Json := .object [("requests", .list (rows.map row))]

def report (c : RequestCounter) : Json := reportOf c.listing

end RequestCounter

end FizzService
