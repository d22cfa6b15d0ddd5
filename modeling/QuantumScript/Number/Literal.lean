import QuantumScript.Number.Binary64
/-!
# Values of number literals

Underscores between digits mean nothing. Integers are those of 64 bits with a sign; a literal that
is greater has no value.
-/

namespace QuantumScript

namespace Number

def withoutUnderscores (text : List Char) : List Char := text.filter (· ≠ '_')

/-- Value of a digit, letters standing for the digits from ten on. -/
def digitValue? (radix : Nat) (c : Char) : Option Nat :=
  let value :=
    if c.isDigit then some (c.toNat - '0'.toNat)
    else if 'a' ≤ c && c ≤ 'z' then some (c.toNat - 'a'.toNat + 10)
    else if 'A' ≤ c && c ≤ 'Z' then some (c.toNat - 'A'.toNat + 10)
    else none
  value.filter (· < radix)

/-- Value of digits in a radix, `value` being the value of those before. -/
def digitsFrom (radix : Nat) (value : Nat) : List Char → Option Nat
  | [] => some value
  | c :: cs =>
    match digitValue? radix c with
    | some digit => digitsFrom radix (value * radix + digit) cs
    | none => none

/-- Value of at least one digit. -/
def digits? (radix : Nat) (text : List Char) : Option Nat :=
  if text.isEmpty then none else digitsFrom radix 0 text

/-- The greatest integer of 64 bits with a sign. -/
def greatest : Nat := (1 <<< 63) - 1

/-- The radix that a literal selects, and its digits. -/
def splitRadix : List Char → Nat × List Char
  | '0' :: 'x' :: rest => (16, rest)
  | '0' :: 'X' :: rest => (16, rest)
  | '0' :: 'o' :: rest => (8, rest)
  | '0' :: 'O' :: rest => (8, rest)
  | '0' :: 'b' :: rest => (2, rest)
  | '0' :: 'B' :: rest => (2, rest)
  | text => (10, text)

/-- Value of an integer literal. -/
def integer? (text : List Char) : Option Nat :=
  let (radix, digits) := splitRadix (withoutUnderscores text)
  (digits? radix digits).filter (· ≤ greatest)

/-- The exponent after its letter: a sign, perhaps, and at least one digit. -/
def exponent? : List Char → Option Int
  | '+' :: digits => (digits? 10 digits).map Int.ofNat
  | '-' :: digits => (digits? 10 digits).map fun n => -(Int.ofNat n)
  | digits => (digits? 10 digits).map Int.ofNat

/-- Digits, perhaps with a point among them: all digits as one number, and how many of them stand
after the point. -/
def mantissa? (text : List Char) : Option (Nat × Nat) :=
  let whole := text.takeWhile (· ≠ '.')
  let fraction := (text.dropWhile (· ≠ '.')).drop 1
  (digits? 10 (whole ++ fraction)).map fun digits => (digits, fraction.length)

def isExponentMark (c : Char) : Bool := c = 'e' || c = 'E'

/-- Value of a literal with a point or an exponent. -/
def float? (text : List Char) : Option Binary64 :=
  let text := withoutUnderscores text
  let exponent :=
    match text.dropWhile fun c => !isExponentMark c with
    | [] => some 0
    | _ :: rest => exponent? rest
  match mantissa? (text.takeWhile fun c => !isExponentMark c), exponent with
  | some (digits, places), some exponent =>
    some ⟨false, Binary64.ofDecimal digits (exponent - places)⟩
  | _, _ => none

end Number

end QuantumScript
