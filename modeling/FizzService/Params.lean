/-
What a client asks for: the bounds and replacements of a sequence, and the form of its answer.
-/
namespace FizzService

/-- The form in which a sequence is answered. -/
inductive OutputFormat where
  | text
  | json
deriving DecidableEq, Repr, Inhabited

namespace OutputFormat

def name : OutputFormat → String
  | text => "text"
  | json => "json"

def contentType : OutputFormat → String
  | text => "text/plain; charset=utf-8"
  | json => "application/json"

/-- Whether a text occurs somewhere in another. -/
def occursIn (part : List Char) : List Char → Bool
  | [] => part.isEmpty
  | c :: cs => part.isPrefixOf (c :: cs) || occursIn part cs

/-- JSON for a client whose content type mentions JSON, text for every other client. -/
def ofContentType (value : Option String) : OutputFormat :=
  match value with
  | some v => if occursIn "application/json".toList v.toList then json else text
  | none => text

end OutputFormat

/-- The sequence runs from one to `limit`; a multiple of `nbOne` is replaced by `strOne`, one of
`nbTwo` by `strTwo`. A multiplier of zero has no multiples. -/
structure Params where
  limit : Nat
  nbOne : Nat
  nbTwo : Nat
  strOne : String
  strTwo : String
  format : OutputFormat
deriving DecidableEq, Repr, Inhabited

end FizzService
