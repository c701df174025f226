/-
Ratios of counters as decimal text. A ratio is rounded to a binary number of 53 significant bits,
and that number is written with the fewest decimal digits that still identify it: of the decimal
grids, coarsest first, the first on which a neighbour of the number rounds back to it.
-/
namespace FizzService

/-- The number `mantissa * 2 ^ exponent`. -/
structure Binary where
  mantissa : Nat
  exponent : Int
deriving DecidableEq, Repr

/-- The number `digits * 10 ^ exponent`. -/
structure Decimal where
  digits : Nat
  exponent : Int
deriving DecidableEq, Repr

/-- The fraction `num / den * base ^ e`, as numerator and denominator. -/
def scale (base num den : Nat) (e : Int) : Nat × Nat :=
  if 0 ≤ e then (num * base.pow e.toNat, den) else (num, den * base.pow (-e).toNat)

/-- The whole number nearest to `num / den`; of two at the same distance, the even one. -/
def nearest (num den : Nat) : Nat :=
  let q := num / den
  let r := num % den
  if 2 * r < den ∨ 2 * r = den ∧ q % 2 = 0 then q else q + 1

namespace Binary

/-- The least mantissa of 53 bits. -/
def leastMantissa : Nat := 4503599627370496

/-- The binary number nearest to `num / den`, both positive, with a mantissa of exactly 53 bits. -/
def ofRatio (num den : Nat) : Binary :=
  let guess : Int := Nat.log2 num - Nat.log2 den - 52
  let (n, d) := scale 2 num den (-guess)
  let e := if n / d < leastMantissa then guess - 1 else guess
  let (n, d) := scale 2 num den (-e)
  let m := nearest n d
  if m = 2 * leastMantissa then ⟨leastMantissa, e + 1⟩ else ⟨m, e⟩

/-- The quotient of two binary numbers. -/
def divide (a b : Binary) : Binary :=
  let (n, d) := scale 2 a.mantissa b.mantissa (a.exponent - b.exponent)
  ofRatio n d

/-- The point of the grid of multiples of `10 ^ p` that is nearest to `b`, if it rounds back to
`b`. The numbers that do are bounded by the halfway points to the neighbours of `b`, and hold
these two when the mantissa is even. Below a power of two the neighbour is only half as far. -/
def onGrid? (b : Binary) (p : Int) : Option Decimal :=
  let m := b.mantissa
  let (unit, den) := scale 2 1 1 (b.exponent - 2)
  let (up, down) := scale 10 1 1 (-p)
  let value := 4 * m * unit * up
  let low := (if m = leastMantissa then 4 * m - 1 else 4 * m - 2) * unit * up
  let high := (4 * m + 2) * unit * up
  let step := den * down
  let a := value / step
  let fits (x : Nat) : Bool :=
    if m % 2 = 0 then low ≤ x * step ∧ x * step ≤ high else low < x * step ∧ x * step < high
  match fits a, fits (a + 1) with
  | true, true => some ⟨nearest value step, p⟩
  | true, false => some ⟨a, p⟩
  | false, true => some ⟨a + 1, p⟩
  | false, false => none

/-- The decimal with the fewest digits that rounds to `b`; of those, the nearest to `b`. The grids
run from one coarser than `b` to one finer than the distance between `b` and its neighbours. -/
def shortest (b : Binary) : Decimal :=
  let top := (scale 2 b.mantissa 1 b.exponent).1.log2 + 1
  ((List.range (top + b.exponent.natAbs + 2)).findSome? fun (i : Nat) => b.onGrid? (top - i : Int)).getD
    ⟨0, 0⟩

end Binary

namespace Decimal

/-- The quotient of two counts, each rounded to binary before it is divided; zero for `0 / den`. -/
def ofCounts (num den : Nat) : Decimal :=
  if num = 0 then ⟨0, 0⟩
  else (Binary.divide (.ofRatio num 1) (.ofRatio den 1)).shortest

/-- Numbers from 0.00001 up to 10 ^ 16 are written out, with a digit on either side of the point;
smaller and larger ones have an exponent. -/
def text (x : Decimal) : String :=
  let ds := Nat.toDigits 10 x.digits
  let point : Int := ds.length + x.exponent
  if 0 ≤ x.exponent ∧ point ≤ 16 then
    String.ofList (ds ++ List.replicate x.exponent.toNat '0' ++ ['.', '0'])
  else if 0 < point ∧ point ≤ 16 then
    String.ofList (ds.take point.toNat ++ '.' :: ds.drop point.toNat)
  else if -5 < point ∧ point ≤ 0 then
    String.ofList ('0' :: '.' :: List.replicate (-point).toNat '0' ++ ds)
  else
    let fraction := if ds.length = 1 then [] else '.' :: ds.drop 1
    String.ofList (ds.take 1 ++ fraction) ++ "e" ++ toString (point - 1)

end Decimal

end FizzService
