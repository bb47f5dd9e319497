import ConstraintLogic.Text.Unprintable

/-!
# Quoted strings

A string is written between double quotes. A quote and a backslash inside are
escaped with a backslash, the common control characters have letters, and every
other unprintable character is written by its number in hexadecimal digits.

Contents:
* `escaped`: the written form of one character.
* `quoted`: the written form of a string.
-/

namespace ConstraintLogic.Text

/-- The digit of value `n`, for `n < 16`. -/
def hexDigit (n : Nat) : Char :=
  if n < 10 then Char.ofNat ('0'.toNat + n) else Char.ofNat ('a'.toNat + (n - 10))

/-- The hexadecimal digits of `n` in front of `rest`, at most `places` of them. -/
def hexOnto : Nat → Nat → List Char → List Char
  | 0, _, rest => rest
  | places + 1, n, rest =>
    if n < 16 then hexDigit n :: rest else hexOnto places (n / 16) (hexDigit (n % 16) :: rest)

/-- The written form of one character of a string. -/
def escaped (c : Char) : List Char :=
  if c = '"' then ['\\', '"']
  else if c = '\\' then ['\\', '\\']
  else if c = '\n' then ['\\', 'n']
  else if c = '\t' then ['\\', 't']
  else if c = '\r' then ['\\', 'r']
  else if c.toNat = 0 then ['\\', '0']
  else if isUnprintable c then '\\' :: 'u' :: '\x7b' :: hexOnto 6 c.toNat ['\x7d']
  else [c]

/-- The written form of a string: its characters, escaped, between quotes. -/
def quoted (s : String) : String := String.ofList ('"' :: s.toList.flatMap escaped ++ ['"'])

end ConstraintLogic.Text
