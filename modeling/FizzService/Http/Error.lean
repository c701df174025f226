/-
Errors as a client sees them: a status, and a message in the form the client asked for.
-/
import FizzService.Computation
import FizzService.Http.Message
import FizzService.Json

namespace FizzService

inductive ServiceError where
  /-- A parameter is malformed or out of range. -/
  | invalidParameter (reason : String)
  | compute (error : ComputeError)
deriving DecidableEq, Repr

namespace ServiceError

def message : ServiceError → String
  | invalidParameter reason => reason
  | compute error => error.message

def status : ServiceError → Nat
  | invalidParameter _ => 412
  | compute _ => 500

/-- The object that reports an error. -/
def report (code : Nat) (message : String) : Json :=
  .object [("code", .whole code), ("message", .text message)]

/-- JSON clients get an object with the status and the message, all others the bare message. -/
def response (e : ServiceError) (format : OutputFormat) : Response :=
  match format with
  | .json => .typed e.status OutputFormat.json.contentType (report e.status e.message).bytes
  | .text => .typed e.status OutputFormat.text.contentType e.message.toUTF8

end ServiceError

end FizzService
