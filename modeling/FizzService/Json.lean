/-
JSON as the service writes it: compact, the members of an object in the order in which they are
given, and in strings only what has to be escaped.
-/
import FizzService.Decimal

namespace FizzService

inductive Json where
  | flag (b : Bool)
  | whole (n : Nat)
  | decimal (x : Decimal)
  | text (s : String)
  | list (items : List Json)
  | object (members : List (String × Json))

namespace Json

def hexDigit (n : Nat) : Char :=
  if n < 10 then Char.ofNat ('0'.toNat + n) else Char.ofNat ('a'.toNat + (n - 10))

/-- A character inside a string: the quote, the backslash and the characters below U+0020 are
escaped, all others stand for themselves. -/
def escapeChar (c : Char) : List Char :=
  if c = '"' then ['\\', '"']
  else if c = '\\' then ['\\', '\\']
  else if c = '\x08' then ['\\', 'b']
  else if c = '\x0c' then ['\\', 'f']
  else if c = '\n' then ['\\', 'n']
  else if c = '\r' then ['\\', 'r']
  else if c = '\t' then ['\\', 't']
  else if c.toNat < 0x20 then
    ['\\', 'u', '0', '0', hexDigit (c.toNat / 16), hexDigit (c.toNat % 16)]
  else [c]

def escape (cs : List Char) : List Char := cs.flatMap escapeChar

def quoted (s : String) : List Char := '"' :: (escape s.toList ++ ['"'])

mutual

def chars : Json → List Char
  | flag b => (if b then "true" else "false").toList
  | whole n => Nat.toDigits 10 n
  | decimal x => x.text.toList
  | text s => quoted s
  | list items => '[' :: (itemChars items ++ [']'])
  | object members => '\x7b' :: (memberChars members ++ ['\x7d'])

def itemChars : List Json → List Char
  | [] => []
  | [j] => chars j
  | j :: js => chars j ++ ',' :: itemChars js

def memberChars : List (String × Json) → List Char
  | [] => []
  | [(name, j)] => quoted name ++ ':' :: chars j
  | (name, j) :: ms => quoted name ++ ':' :: (chars j ++ ',' :: memberChars ms)

end

/-- The JSON text of a value. -/
def render (j : Json) : String := .ofList j.chars

/-- The JSON text of a value, in UTF-8. -/
def bytes (j : Json) : ByteArray := j.render.toUTF8

end Json

end FizzService
