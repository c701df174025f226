/-
The form encoding of a query, `name=value` pairs joined by `&`: a space is written `+`, and every
byte that is neither a letter, a digit nor one of `*-._` is written `%` and two hex digits.
Reading is lenient: a `%` that two hex digits do not follow stands for itself, bytes that are not
UTF-8 become U+FFFD, and a pair without `=` has an empty value. `split_append` and `cut_append`
take what was joined apart again.
-/
import FizzService.Text.Utf8

namespace FizzService.Text.Form

/-- The pieces of a text between the occurrences of a character. -/
def split (sep : Char) : List Char → List (List Char)
  | [] => [[]]
  | c :: cs =>
    if c = sep then [] :: split sep cs
    else (c :: (split sep cs).headD []) :: (split sep cs).tail

/-- What stands before the first occurrence of a character, and what stands after it. -/
def cut (sep : Char) (cs : List Char) : List Char × List Char :=
  (cs.takeWhile (· ≠ sep), (cs.dropWhile (· ≠ sep)).drop 1)

def hexValue? (c : Char) : Option Nat :=
  if '0' ≤ c ∧ c ≤ '9' then some (c.toNat - '0'.toNat)
  else if 'a' ≤ c ∧ c ≤ 'f' then some (c.toNat - 'a'.toNat + 10)
  else if 'A' ≤ c ∧ c ≤ 'F' then some (c.toNat - 'A'.toNat + 10)
  else none

/-- The bytes that a written name or value stands for. -/
def decodeBytes : List Char → List UInt8
  | [] => []
  | '+' :: cs => 0x20 :: decodeBytes cs
  | '%' :: h :: l :: cs =>
    match hexValue? h, hexValue? l with
    | some a, some b => UInt8.ofNat (16 * a + b) :: decodeBytes cs
    | _, _ => 0x25 :: decodeBytes (h :: l :: cs)
  | c :: cs => String.utf8EncodeChar c ++ decodeBytes cs

def decode (cs : List Char) : List Char := decodeLossy (decodeBytes cs)

/-- The pairs that a query holds, in order; empty pieces hold none. -/
def pairs (cs : List Char) : List (List Char × List Char) :=
  ((split '&' cs).filter (· ≠ [])).map fun piece =>
    (decode (cut '=' piece).1, decode (cut '=' piece).2)

/-- The characters that are written as they are. -/
def isPlain (c : Char) : Bool := c.isAlphanum || ['*', '-', '.', '_'].contains c

def hexDigit (n : Nat) : Char :=
  if n < 10 then Char.ofNat ('0'.toNat + n) else Char.ofNat ('A'.toNat + (n - 10))

def encodeByte (b : UInt8) : List Char := ['%', hexDigit (b.toNat / 16), hexDigit (b.toNat % 16)]

def encodeChar (c : Char) : List Char :=
  if c = ' ' then ['+']
  else if isPlain c then [c]
  else (String.utf8EncodeChar c).flatMap encodeByte

def encode (cs : List Char) : List Char := cs.flatMap encodeChar

def encodePair (p : List Char × List Char) : List Char := encode p.1 ++ '=' :: encode p.2

/-- A query that holds the given pairs. -/
def encodePairs : List (List Char × List Char) → List Char
  | [] => []
  | [p] => encodePair p
  | p :: ps => encodePair p ++ '&' :: encodePairs ps

theorem hexValue?_hexDigit {n : Nat} (h : n < 16) : hexValue? (hexDigit n) = some n := by
  have : ∀ n : Fin 16, hexValue? (hexDigit n) = some n.val := by decide
  exact this ⟨n, h⟩

theorem decodeBytes_cons {c : Char} (hp : c ≠ '+') (hh : c ≠ '%') (cs : List Char) :
    decodeBytes (c :: cs) = String.utf8EncodeChar c ++ decodeBytes cs := by
  rw [decodeBytes]
  · exact hp
  · intro _ _ _ h; exact absurd h hh

theorem cut_append {sep : Char} {cs : List Char} (h : ∀ x ∈ cs, x ≠ sep) (rest : List Char) :
    cut sep (cs ++ sep :: rest) = (cs, rest) := by
  induction cs with
  | nil => simp [cut]
  | cons c cs ih =>
    have hc := h c (by simp)
    have ih := ih fun x hx => h x (by simp [hx])
    simp only [cut, Prod.mk.injEq] at ih ⊢
    rw [List.cons_append, List.takeWhile_cons_of_pos (by simpa using hc),
      List.dropWhile_cons_of_pos (by simpa using hc), ih.1, ih.2]
    exact ⟨rfl, rfl⟩

theorem split_append {sep : Char} {cs : List Char} (h : ∀ x ∈ cs, x ≠ sep) (rest : List Char) :
    split sep (cs ++ sep :: rest) = cs :: split sep rest := by
  induction cs with
  | nil => simp [split]
  | cons c cs ih =>
    have hc := h c (by simp)
    have ih := ih fun x hx => h x (by simp [hx])
    simp [split, hc, ih]

theorem split_of_ne {sep : Char} {cs : List Char} (h : ∀ x ∈ cs, x ≠ sep) :
    split sep cs = [cs] := by
  induction cs with
  | nil => rfl
  | cons c cs ih =>
    have hc := h c (by simp)
    have ih := ih fun x hx => h x (by simp [hx])
    simp [split, hc, ih]

end FizzService.Text.Form
