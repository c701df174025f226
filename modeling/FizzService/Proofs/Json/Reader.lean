/-
JSON as a client reads it, by the grammar of JSON and nothing beyond it: a text
is one value with white space around it and around every mark inside it. A
string ends at the first quote that is not escaped; it holds no control
character in the raw, and no escape but those of the grammar. `read?` reads a
whole text, so nothing may stand behind the value.

Each function reads a piece from the head of a text and returns it with the text
behind it.
-/
import FizzService.Json
import FizzService.Text.Form

namespace FizzService

/-- The number `digits * 10 ^ exponent`, or its negative. -/
structure JsonNumber where
  negative : Bool
  digits : Nat
  exponent : Int
deriving DecidableEq, Repr

/-- What a JSON text stands for. An object has all the members that the text
gives it, in their order. -/
inductive JsonValue where
  | null
  | flag (b : Bool)
  | number (n : JsonNumber)
  | text (s : String)
  | list (items : List JsonValue)
  | object (members : List (String × JsonValue))

namespace JsonValue

/-! ## White space and marks -/

def isBlank (c : Char) : Bool := [' ', '\t', '\n', '\r'].contains c

def skip (cs : List Char) : List Char := cs.dropWhile isBlank

theorem length_skip_le (cs : List Char) : (skip cs).length ≤ cs.length :=
  (List.dropWhile_sublist isBlank).length_le

/-- The text behind a mark and the white space on either side of it. -/
def behind? (mark : Char) (cs : List Char) : Option (List Char) :=
  match skip cs with
  | c :: rest => if c = mark then some (skip rest) else none
  | [] => none

/-! ## Strings -/

/-- The letters of the short escapes, and what they stand for. -/
def escapes : List (Char × Char) :=
  [('"', '"'), ('\\', '\\'), ('/', '/'), ('b', '\x08'), ('f', '\x0c'), ('n', '\n'), ('r', '\r'),
    ('t', '\t')]

/-- A number of four hex digits. -/
def unit? : List Char → Option (Nat × List Char)
  | a :: b :: c :: d :: cs => do
    let a ← Text.Form.hexValue? a
    let b ← Text.Form.hexValue? b
    let c ← Text.Form.hexValue? c
    let d ← Text.Form.hexValue? d
    return (((a * 16 + b) * 16 + c) * 16 + d, cs)
  | _ => none

def isHigh (u : Nat) : Bool := 0xd800 ≤ u && u < 0xdc00

def isLow (u : Nat) : Bool := 0xdc00 ≤ u && u < 0xe000

/-- The second half of a pair, with the escape that begins it. -/
def low? : List Char → Option (Nat × List Char)
  | '\\' :: 'u' :: cs => (unit? cs).filter fun p => isLow p.1
  | _ => none

/-- A character by its number. One that has more than four digits is a pair of
halves, and neither half stands alone. -/
def numbered? (cs : List Char) : Option (Char × List Char) := do
  let (u, cs) ← unit? cs
  if isHigh u then
    let (v, cs) ← low? cs
    return (.ofNat (0x10000 + 0x400 * (u - 0xd800) + (v - 0xdc00)), cs)
  else if isLow u then none
  else return (.ofNat u, cs)

/-- The character that stands behind a backslash. -/
def escaped? : List Char → Option (Char × List Char)
  | [] => none
  | c :: cs =>
    if c = 'u' then numbered? cs else (escapes.find? (·.1 = c)).map fun e => (e.2, cs)

/-- One character of a string, escaped or not. -/
def character? : List Char → Option (Char × List Char)
  | [] => none
  | c :: cs =>
    if c = '\\' then escaped? cs
    else if c = '"' ∨ c.toNat < 0x20 then none
    else some (c, cs)

/-- A string from behind its opening quote to its closing quote. Every character
takes at least one away from the text, so the reader comes to an end. -/
def string? (cs : List Char) : Option (List Char × List Char) :=
  if cs.head? = some '"' then some ([], cs.tail)
  else do
    let (c, rest) ← character? cs
    if rest.length < cs.length then
      let (s, rest) ← string? rest
      return (c :: s, rest)
    else none
termination_by cs.length

/-! ## Numbers -/

/-- A run of digits, at least one. -/
def digits? (cs : List Char) : Option (List Char × List Char) :=
  if cs.takeWhile Char.isDigit = [] then none
  else some (cs.takeWhile Char.isDigit, cs.dropWhile Char.isDigit)

/-- The digits before the point; only zero begins with a zero. -/
def whole? (cs : List Char) : Option (List Char × List Char) :=
  (digits? cs).filter fun p => p.1 = ['0'] ∨ p.1.head? ≠ some '0'

/-- The digits behind the point, if there is one. -/
def fraction? (cs : List Char) : Option (List Char × List Char) :=
  if cs.head? = some '.' then digits? cs.tail else some ([], cs)

/-- A number without a sign, or behind one of the signs. -/
def signed? (cs : List Char) : Option (Int × List Char) :=
  if cs.head? = some '-' then (digits? cs.tail).map fun p => (-(Nat.ofDigitChars 10 p.1 0 : Int), p.2)
  else
    (digits? (if cs.head? = some '+' then cs.tail else cs)).map fun p =>
      ((Nat.ofDigitChars 10 p.1 0 : Int), p.2)

/-- The power of ten by which the digits are moved, if it is given. -/
def exponent? (cs : List Char) : Option (Int × List Char) :=
  if cs.head? = some 'e' ∨ cs.head? = some 'E' then signed? cs.tail else some (0, cs)

def number? (cs : List Char) : Option (JsonNumber × List Char) := do
  let negative := cs.head? = some '-'
  let (whole, cs) ← whole? (if negative then cs.tail else cs)
  let (fraction, cs) ← fraction? cs
  let (exponent, cs) ← exponent? cs
  return (⟨negative, Nat.ofDigitChars 10 (whole ++ fraction) 0, exponent - fraction.length⟩, cs)

/-! ## Values -/

/-- The values that are spelled by a word. -/
def words : List (String × JsonValue) := [("null", null), ("true", flag true), ("false", flag false)]

def word? (cs : List Char) : Option (JsonValue × List Char) :=
  (words.find? (·.1.toList.isPrefixOf cs)).map fun w => (w.2, cs.drop w.1.length)

mutual

/-- A value, at the very head of the text. -/
def value? (cs : List Char) : Option (JsonValue × List Char) :=
  match cs with
  | [] => none
  | c :: rest =>
    if c = '"' then (string? rest).map fun p => (text (.ofList p.1), p.2)
    else if c = '[' then
      match behind? ']' rest with
      | some rest => some (list [], rest)
      | none => (items? (skip rest)).map fun p => (list p.1, p.2)
    else if c = '\x7b' then
      match behind? '\x7d' rest with
      | some rest => some (object [], rest)
      | none => (members? (skip rest)).map fun p => (object p.1, p.2)
    else (word? (c :: rest)).or ((number? (c :: rest)).map fun p => (number p.1, p.2))
termination_by (cs.length, 0)
decreasing_by all_goals exact Prod.Lex.left _ _ (Nat.lt_succ_of_le (length_skip_le rest))

/-- The items of a list, at least one, and the bracket that closes it. -/
def items? (cs : List Char) : Option (List JsonValue × List Char) := do
  let (v, rest) ← value? cs
  match behind? ',' rest with
  | some rest =>
    if rest.length < cs.length then
      let (vs, rest) ← items? rest
      return (v :: vs, rest)
    else none
  | none => (behind? ']' rest).map ([v], ·)
termination_by (cs.length, 1)

/-- The members of an object, at least one, and the brace that closes it. -/
def members? (cs : List Char) : Option (List (String × JsonValue) × List Char) :=
  if cs.head? = some '"' then do
    let (name, rest) ← string? cs.tail
    let rest ← behind? ':' rest
    if rest.length < cs.length then
      let (v, rest) ← value? rest
      match behind? ',' rest with
      | some rest =>
        if rest.length < cs.length then
          let (vs, rest) ← members? rest
          return ((.ofList name, v) :: vs, rest)
        else none
      | none => (behind? '\x7d' rest).map ([(.ofList name, v)], ·)
    else none
  else none
termination_by (cs.length, 1)

end

/-- The value of a text. -/
def parse? (cs : List Char) : Option JsonValue := do
  let (v, rest) ← value? (skip cs)
  if skip rest = [] then some v else none

/-- The value of a text in UTF-8. -/
def read? (bytes : ByteArray) : Option JsonValue := (String.fromUTF8? bytes).bind (parse? ·.toList)

/-- A pair of halves is one character, and white space may stand around every mark. -/
example : parse? " [ \"\\ud83d\\ude00\" , -2.5e3 ]\n".toList =
    some (list [text "😀", number ⟨true, 25, 2⟩]) := by cbv

example : parse? "[1,]".toList = none ∧ parse? "\"a\nb\"".toList = none ∧ parse? "01".toList = none := by cbv

end JsonValue

end FizzService
