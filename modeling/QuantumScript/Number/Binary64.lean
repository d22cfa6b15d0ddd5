/-!
# Binary floating point

Numbers of 64 bits, kept as a sign and a code. The codes number the magnitudes from zero upwards,
so the next code is the next magnitude. Everything is done in whole numbers, so a decimal is read to
the nearest number and a number is written with the fewest digits that are read back to it.
-/

namespace QuantumScript

structure Binary64 where
  negative : Bool
  code : Nat
  deriving DecidableEq, Repr

namespace Binary64

def infinityCode : Nat := 0x7ff <<< 52

/-- The bits of the number: the sign before the code. -/
def bits (x : Binary64) : Nat := (if x.negative then 1 <<< 63 else 0) + x.code

def negate (x : Binary64) : Binary64 := { x with negative := !x.negative }

/-- The magnitudes are multiples of half of the least positive one, of which this many make one. -/
def unitsPerOne : Nat := 1 <<< 1075

/-- The magnitude of a code in such units. The code of infinity counts as the next power of two. -/
def units (code : Nat) : Nat :=
  let exponent := code >>> 52
  let fraction := code % (1 <<< 52)
  if exponent = 0 then 2 * fraction else ((1 <<< 52) + fraction) <<< exponent

/-- The quotient rounded to the nearest whole number, and to the even one of two. -/
def divideToEven (num den : Nat) : Nat :=
  let q := num / den
  let r := num % den
  if 2 * r < den || (2 * r = den && q % 2 = 0) then q else q + 1

/-- The greatest `n` with `2 ^ n * den ≤ num`, at least zero. -/
def log2Quotient (num den : Nat) : Nat :=
  let guess := num.log2 - den.log2
  if den <<< guess ≤ num then guess else guess - 1

/-- Code of the magnitude nearest to a quotient of whole numbers. Quotients beyond the greatest
magnitude become infinite. -/
def ofQuotient (num den : Nat) : Nat :=
  let scaled := num <<< 1074
  let shift := log2Quotient scaled den - 52
  min infinityCode ((shift <<< 52) + divideToEven scaled (den <<< shift))

/-- Number of decimal digits. -/
def digitCount (n : Nat) : Nat := (Nat.toDigits 10 n).length

/-- The power of ten with the given exponent, and one for negative exponents. -/
def powerOfTen (exponent : Int) : Nat := Nat.pow 10 exponent.toNat

/-- Code of the magnitude nearest to `digits * 10 ^ exponent`. Decimals that are far too large or
too small are told by their size alone. -/
def ofDecimal (digits : Nat) (exponent : Int) : Nat :=
  let size := (digitCount digits : Int) + exponent
  if digits = 0 || size < -330 then 0
  else if 320 < size then infinityCode
  else ofQuotient (digits * powerOfTen exponent) (powerOfTen (-exponent))

/-- A decimal number: digits and the power of ten that they count. -/
structure Decimal where
  digits : Nat
  exponent : Int
  deriving DecidableEq, Repr

namespace Decimal

/-- The decimal is below, at or above a number of units. -/
def compareUnits (decimal : Decimal) (units : Nat) : Ordering :=
  compare (decimal.digits * powerOfTen decimal.exponent * unitsPerOne)
    (units * powerOfTen (-decimal.exponent))

/-- The decimal is read as the magnitude of a code, zero and infinity excepted: it lies between the
points halfway to the neighbouring magnitudes. Those points belong to the even codes. -/
def readsAs (decimal : Decimal) (code : Nat) : Bool :=
  let low := decimal.compareUnits ((units (code - 1) + units code) / 2)
  let high := decimal.compareUnits ((units code + units (code + 1)) / 2)
  let even := code % 2 = 0
  (low = .gt || (even && low = .eq)) && (high = .lt || (even && high = .eq))

/-- The greatest decimal with the given exponent that is not above a number of units. -/
def floor (units : Nat) (exponent : Int) : Decimal :=
  ⟨units * powerOfTen (-exponent) / (unitsPerOne * powerOfTen exponent), exponent⟩

/-- The next decimal with the same exponent. -/
def next (decimal : Decimal) : Decimal := { decimal with digits := decimal.digits + 1 }

/-- The given number of units lies nearer to the decimal than to the next one. -/
def isNearer (decimal : Decimal) (units : Nat) : Bool :=
  compareUnits ⟨2 * decimal.digits + 1, decimal.exponent⟩ (2 * units) = .gt

/-- The decimal with the given exponent that is read as a code, if there is one. Of two the nearer
one is taken, and the upper one if both are equally near. -/
def nearest? (code : Nat) (exponent : Int) : Option Decimal :=
  let low := floor (units code) exponent
  let high := low.next
  if low.readsAs code && (low.isNearer (units code) || !high.readsAs code) then some low
  else if high.readsAs code then some high
  else none

/-- The least power of ten above a number of units. -/
def magnitude (units : Nat) : Int :=
  if unitsPerOne ≤ units then digitCount (units / unitsPerOne)
  else 1 - (digitCount ((unitsPerOne - 1) / units) : Int)

/-- The decimal with the fewest digits that is read as a code. Seventeen digits are always
enough. -/
def shortest (code : Nat) : Decimal :=
  let top := magnitude (units code)
  let tries := (List.range 17).map fun n => top - (n + 1 : Nat)
  (tries.findSome? (nearest? code)).getD (floor (units code) (-1075))

/-- Decimal digits without the zeros at the end, and how many zeros that were. -/
def significant (decimal : Decimal) : List Char × Int :=
  let digits := (Nat.toDigits 10 decimal.digits).reverse
  ((digits.dropWhile (· = '0')).reverse,
    decimal.exponent + (digits.takeWhile (· = '0')).length)

/-- The decimal in positional form. -/
def written (decimal : Decimal) : List Char :=
  let (digits, exponent) := decimal.significant
  let places := (-exponent).toNat
  if 0 ≤ exponent then digits ++ List.replicate exponent.toNat '0'
  else if places < digits.length then
    digits.take (digits.length - places) ++ '.' :: digits.drop (digits.length - places)
  else '0' :: '.' :: List.replicate (places - digits.length) '0' ++ digits

end Decimal

/-- The number with the fewest digits, never with an exponent. -/
def written (x : Binary64) : List Char :=
  (if x.negative then ['-'] else []) ++
    if x.code = 0 then ['0']
    else if x.code = infinityCode then ['i', 'n', 'f']
    else (Decimal.shortest x.code).written

end Binary64

end QuantumScript
