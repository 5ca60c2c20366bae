import JuliaReleases.Text.Basic

/-!
# Hexadecimal digits

Escapes name a character by its code point in hexadecimal digits, in capitals or not.
-/

namespace JuliaReleases.Hexadecimal

/-- The value of a hexadecimal digit. -/
def digit? (c : Char) : Option Nat :=
  if c.isDigit then some (c.toNat - '0'.toNat)
  else if 'a' ≤ c ∧ c ≤ 'f' then some (c.toNat - 'a'.toNat + 10)
  else if 'A' ≤ c ∧ c ≤ 'F' then some (c.toNat - 'A'.toNat + 10)
  else none

/-- The number that a string of hexadecimal digits denotes. -/
def value? (digits : Text) : Option Nat :=
  (digits.mapM digit?).map (·.foldl (fun n digit => 16 * n + digit) 0)

end JuliaReleases.Hexadecimal
