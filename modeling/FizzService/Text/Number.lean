/-
Decimal numbers as settings and requests spell them: ASCII digits, any number of leading zeros,
an optional sign, nothing else. `digits?_toDigits` says that what a number is printed as reads
back as that number.
-/
namespace FizzService.Text

/-- The value of a run of one or more ASCII digits. -/
def digits? (cs : List Char) : Option Nat :=
  if cs ≠ [] ∧ cs.all Char.isDigit then some (Nat.ofDigitChars 10 cs 0) else none

/-- Digits behind an optional plus sign. -/
def unsigned? : List Char → Option Nat
  | '+' :: cs => digits? cs
  | cs => digits? cs

/-- Digits behind an optional sign. -/
def signed? : List Char → Option Int
  | '-' :: cs => (digits? cs).map fun n => -(n : Int)
  | cs => (unsigned? cs).map fun n => (n : Int)

/-- An unsigned number below `bound`. -/
def below? (bound : Nat) (cs : List Char) : Option Nat :=
  (unsigned? cs).filter (· < bound)

/-- A signed number of 64 bits. -/
def signed64? (cs : List Char) : Option Int :=
  (signed? cs).filter fun n => Int64.minValue.toInt ≤ n ∧ n ≤ Int64.maxValue.toInt

theorem digits?_toDigits (n : Nat) : digits? (Nat.toDigits 10 n) = some n := by
  have hd : (Nat.toDigits 10 n).all Char.isDigit = true :=
    List.all_eq_true.2 fun c hc => Nat.isDigit_of_mem_toDigits (by decide) (by decide) hc
  simp [digits?, Nat.toDigits_ne_nil, hd, Nat.ofDigitChars_toDigits]

theorem unsigned?_of_isDigit {cs : List Char} (h : ∀ c ∈ cs, c.isDigit = true) :
    unsigned? cs = digits? cs := by
  unfold unsigned?
  split
  · rename_i cs'
    exact absurd (h '+' (by simp)) (by decide)
  · rfl

end FizzService.Text
