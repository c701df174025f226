/-
Requests and responses: the target a request names, its headers, and what is sent back.
-/
import FizzService.Params
import FizzService.Text.Form

namespace FizzService

/-- What a request is addressed to. -/
structure Target where
  path : String
  query : String
deriving DecidableEq, Repr

namespace Target

/-- A target without the scheme and the host that an absolute one begins with. -/
def dropOrigin (cs : List Char) : List Char :=
  if cs.head? = some '/' then cs
  else
    match cs.dropWhile (· ≠ ':') with
    | ':' :: '/' :: '/' :: rest => rest.dropWhile fun c => c ≠ '/' ∧ c ≠ '?'
    | _ => cs

/-- The target that a request line spells. The query follows the first question mark; a fragment
is left out, and an absent path is the root. -/
def ofText (text : String) : Target :=
  let (path, query) := Text.Form.cut '?' (dropOrigin (text.toList.takeWhile (· ≠ '#')))
  ⟨if path = [] then "/" else String.ofList path, String.ofList query⟩

end Target

structure Request where
  method : String
  target : Target
  headers : List (String × ByteArray)

namespace Request

/-- The first value of the header with the given name in lower case; the request may spell it in
any case. -/
def header? (r : Request) (name : String) : Option ByteArray :=
  (r.headers.find? (·.1.toLower = name)).map (·.2)

/-- The text of a header value, if it is all visible ASCII, spaces and tabs. -/
def headerText? (value : ByteArray) : Option String :=
  if value.data.all fun b => b = 9 ∨ 32 ≤ b ∧ b < 127 then
    some (String.ofList (value.data.toList.map fun b => Char.ofNat b.toNat))
  else none

/-- The form in which the client wants its answer. -/
def format (r : Request) : OutputFormat :=
  .ofContentType ((r.header? "content-type").bind headerText?)

end Request

structure Response where
  status : Nat
  headers : List (String × ByteArray)
  body : ByteArray

namespace Response

/-- A response without a body. -/
def bare (status : Nat) (headers : List (String × String)) : Response :=
  ⟨status, headers.map fun h => (h.1, h.2.toUTF8), .empty⟩

/-- A response with a body of the given content type. -/
def typed (status : Nat) (contentType : String) (body : ByteArray) : Response :=
  ⟨status, [("content-type", contentType.toUTF8)], body⟩

end Response

end FizzService
