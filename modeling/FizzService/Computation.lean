/-
The function that produces bodies, as the service sees it: what a run of it can end with, and the
failures that reach a caller.
-/
import FizzService.Params

namespace FizzService

/-- A computation without a result: it reported a failure, or it was aborted, with what is known
of the cause. -/
inductive ComputeError where
  | failed (message : String)
  | aborted (cause : String)
deriving DecidableEq, Repr

namespace ComputeError

def message : ComputeError → String
  | failed m => "Computation failed: " ++ m
  | aborted cause => "Computation aborted: " ++ cause

end ComputeError

/-- How a run of the compute function ends: it returns a body or an error of either kind, or it
crashes. -/
inductive Outcome where
  | body (bytes : ByteArray)
  | failure (error : ComputeError)
  | crash

abbrev Compute := Params → Outcome

/-- What the caller of a computation gets. A crash aborts the computation. -/
def Outcome.answer : Outcome → Except ComputeError ByteArray
  | body bytes => .ok bytes
  | failure error => .error error
  | crash => .error (.aborted "the computation crashed")

end FizzService
