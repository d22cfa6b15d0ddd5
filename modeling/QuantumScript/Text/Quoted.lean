/-!
# Quoted text

A text is quoted by putting it between double quotes. Quotes, backslashes and control characters
within it are escaped, all other characters stand for themselves.

Above U+009F some characters are not printable, and some combine with the one before them. They are escaped
too where the tables of Unicode that name them are at hand. These tables are left out, and here such a
character stands for itself.
-/

namespace QuantumScript

namespace Text

/-- The controls that have no escape letter: C0, delete and C1. -/
def isControl (c : Char) : Bool :=
  c.toNat < 0x20 || (0x7f ≤ c.toNat && c.toNat ≤ 0x9f)

/-- A character as it stands between the quotes. -/
def escape (c : Char) : List Char :=
  if c = '\\' then ['\\', '\\']
  else if c = '"' then ['\\', '"']
  else if c = '\n' then ['\\', 'n']
  else if c = '\r' then ['\\', 'r']
  else if c = '\t' then ['\\', 't']
  else if c.toNat = 0 then ['\\', '0']
  else if isControl c then ['\\', 'u', '{'] ++ Nat.toDigits 16 c.toNat ++ ['}']
  else [c]

def quote (cs : List Char) : List Char :=
  '"' :: cs.flatMap escape ++ ['"']

end Text

end QuantumScript
