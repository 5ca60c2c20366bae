import JuliaReleases.Text.Basic

/-!
# Decimal numerals

The numbers of a version are natural numbers up to `JuliaReleases.maxNumber`, written with the
digits `0` to `9`. This file reads such a numeral (`JuliaReleases.Decimal.read?`), writes one
(`JuliaReleases.Decimal.write`) and steps to the next number that can still be written
(`JuliaReleases.nextNumber`).
-/

namespace JuliaReleases

/-- The greatest number that a component of a version may hold, `2 ^ 64 - 1`. -/
def maxNumber : Nat :=
  18446744073709551615

/-- The number that follows `n`, or `maxNumber` if there is none. -/
def nextNumber (n : Nat) : Nat :=
  min (n + 1) maxNumber

namespace Decimal

/-- Whether a text is a numeral: at least one character, and digits only. -/
def isNumeral (text : Text) : Bool :=
  !text.isEmpty && text.all Char.isDigit

/-- The number that a string of digits denotes. -/
def value (digits : Text) : Nat :=
  Nat.ofDigitChars 10 digits 0

/-- The numeral of a number, without leading zeros. -/
def write (n : Nat) : Text :=
  Nat.toDigits 10 n

/-- Whether a numeral has a zero in front of its other digits. -/
def hasLeadingZero (digits : Text) : Bool :=
  match digits with
  | '0' :: _ :: _ => true
  | _ => false

/-- Reads a numeral whose value is at most `maxNumber`; leading zeros do no harm. -/
def read? (text : Text) : Option Nat :=
  if isNumeral text ∧ value text ≤ maxNumber then some (value text) else none

theorem read?_eq_some_iff {text : Text} {n : Nat} :
    read? text = some n ↔ isNumeral text = true ∧ value text ≤ maxNumber ∧ value text = n := by
  unfold read?
  split
  · next h => simp [h.1, h.2]
  · next h => exact iff_of_false (by simp) fun ⟨hnumeral, hle, _⟩ => h ⟨hnumeral, hle⟩

theorem le_maxNumber_of_read? {text : Text} {n : Nat} (h : read? text = some n) :
    n ≤ maxNumber := by
  obtain ⟨-, hle, rfl⟩ := read?_eq_some_iff.mp h
  exact hle

end Decimal

end JuliaReleases
