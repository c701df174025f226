/-
The query of a request for a sequence: how its fields are read from the text of a query, and how
they are checked against the limits. Fields are checked one after the other, and the first fault
is reported.
-/
import FizzService.Config.Service
import FizzService.Params
import FizzService.Text.Blank
import FizzService.Text.Form

namespace FizzService

/-- The fields of a query; all others are ignored. -/
inductive QueryField where
  | limit
  | nbOne
  | nbTwo
  | strOne
  | strTwo
deriving DecidableEq, Repr

namespace QueryField

def name : QueryField → String
  | limit => "limit"
  | nbOne => "nbOne"
  | nbTwo => "nbTwo"
  | strOne => "strOne"
  | strTwo => "strTwo"

def all : List QueryField := [limit, nbOne, nbTwo, strOne, strTwo]

def ofName? (name : String) : Option QueryField := all.find? (·.name = name)

end QueryField

/-- The fields as the client wrote them. -/
structure Query where
  limit : Option String := none
  nbOne : Option String := none
  nbTwo : Option String := none
  strOne : Option String := none
  strTwo : Option String := none
deriving DecidableEq, Repr

/-- Why the text of a query is not read. -/
inductive QueryRejection where
  | duplicate (field : QueryField)
deriving DecidableEq, Repr

def QueryRejection.message : QueryRejection → String
  | duplicate field =>
    "Failed to deserialize query string: duplicate field `" ++ field.name ++ "`"

/-- Why a field is refused. -/
inductive ParameterError where
  | notAnInteger (field : QueryField) (raw : String)
  | notPositive (field : QueryField)
  | tooLarge (field : QueryField) (raw : String) (max : UInt64)
  | tooLong (field : QueryField) (max : UInt64)
deriving DecidableEq, Repr

def ParameterError.message : ParameterError → String
  | notAnInteger field raw => "invalid integer for " ++ field.name ++ " " ++ raw
  | notPositive field => field.name ++ " must be greater than zero"
  | tooLarge field raw max =>
    "maximum size exceeded for " ++ field.name ++ " " ++ raw ++ ", max " ++ toString max.toNat
  | tooLong field max =>
    "maximum char exceeded for " ++ field.name ++ ", max " ++ toString max.toNat

namespace Query

def get (q : Query) : QueryField → Option String
  | .limit => q.limit
  | .nbOne => q.nbOne
  | .nbTwo => q.nbTwo
  | .strOne => q.strOne
  | .strTwo => q.strTwo

def set (q : Query) (value : String) : QueryField → Query
  | .limit => { q with limit := some value }
  | .nbOne => { q with nbOne := some value }
  | .nbTwo => { q with nbTwo := some value }
  | .strOne => { q with strOne := some value }
  | .strTwo => { q with strTwo := some value }

/-- Adds a pair of a name and a value. A field may be given once. -/
def add (q : Query) (pair : String × String) : Except QueryRejection Query :=
  match QueryField.ofName? pair.1 with
  | none => .ok q
  | some field =>
    match q.get field with
    | some _ => .error (.duplicate field)
    | none => .ok (q.set pair.2 field)

/-- The query that a text in form encoding holds. -/
def ofText (text : String) : Except QueryRejection Query :=
  (Text.Form.pairs text.toList).foldlM
    (fun q pair => q.add (String.ofList pair.1, String.ofList pair.2)) {}

/-- The value of a numeric field: a positive number up to `max` that fits into 63 bits, with or
without white space around it. A field that is missing or empty is zero. -/
def number (field : QueryField) (max : UInt64) (raw : Option String) :
    Except ParameterError Nat :=
  match raw with
  | none => .ok 0
  | some raw =>
    if raw = "" then .ok 0
    else
      match Text.signed64? (Text.trim raw.toList) with
      | none => .error (.notAnInteger field raw)
      | some n =>
        if n < 1 then .error (.notPositive field)
        else if n.toNat > max.toNat then .error (.tooLarge field raw max)
        else .ok n.toNat

/-- The value of a replacement: at most `max` bytes. A field that is missing is empty. -/
def replacement (field : QueryField) (max : UInt64) (raw : Option String) :
    Except ParameterError String :=
  let value := raw.getD ""
  if value.utf8ByteSize > max.toNat then .error (.tooLong field max) else .ok value

def validate (q : Query) (limits : Limits) (format : OutputFormat) :
    Except ParameterError Params := do
  let nbOne ← number .nbOne limits.maxNb q.nbOne
  let nbTwo ← number .nbTwo limits.maxNb q.nbTwo
  let limit ← number .limit limits.maxLimit q.limit
  let strOne ← replacement .strOne limits.maxStrChars q.strOne
  let strTwo ← replacement .strTwo limits.maxStrChars q.strTwo
  return ⟨limit, nbOne, nbTwo, strOne, strTwo, format⟩

end Query

end FizzService
