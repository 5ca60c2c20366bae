import JuliaReleases.Json.Reading
import JuliaReleases.Text.Decimal

/-!
# Numbers

The documents of this library hold natural numbers only, but a reader has to find the end of any
number to say what is wrong with it. `JuliaReleases.Json.readNumber` reads a number where a value is
asked for. It answers with a natural number if the text is one up to `JuliaReleases.maxNumber`,
written without sign, fraction and exponent, and with nothing for every other number. A number so
great that no double holds it is refused outright (`JuliaReleases.Json.Magnitude`).

`JuliaReleases.Json.skipNumber` passes over a number that nobody asks for. There a missing digit is
a fault of the notation even at the end of the document.
-/

namespace JuliaReleases.Json

/-! ### Magnitudes -/

/-- A number as it is weighed: a significand that fits in 64 bits, and a power of ten. -/
structure Magnitude where
  significand : Nat
  exponent : Int

namespace Magnitude

/-- The nearest number with 53 significant bits; between two of them, the even one. -/
def roundToDouble (n : Nat) : Nat :=
  let unit := Nat.pow 2 (n.log2 - 52)
  let quotient := n / unit
  let remainder := n % unit
  if 2 * remainder < unit then quotient * unit
  else if 2 * remainder = unit ∧ quotient % 2 = 0 then quotient * unit
  else (quotient + 1) * unit

/-- The least number that rounds to no double any more. -/
def overflowLimit : Nat :=
  Nat.pow 2 1024 - Nat.pow 2 970

/-- Whether no double holds the number. Significand and power are rounded before they are
multiplied, and no power above the 308th is a double. -/
def overflows (m : Magnitude) : Bool :=
  m.significand != 0 &&
    (m.exponent > 308 ||
      m.exponent ≥ 0 &&
        roundToDouble m.significand * roundToDouble (Nat.pow 10 m.exponent.toNat) ≥ overflowLimit)

/-- Takes in digits as long as the significand fits; gives the number of digits taken, too. -/
def takeDigits (significand : Nat) : Text → Nat × Nat
  | [] => (significand, 0)
  | c :: digits =>
    let next := 10 * significand + (c.toNat - '0'.toNat)
    if next ≤ maxNumber then
      let (significand, taken) := takeDigits next digits
      (significand, taken + 1)
    else (significand, 0)

/-- The magnitude of a number from the digits before and behind its point and its exponent. -/
def ofDigits (whole fraction : Text) (exponent : Int) : Magnitude :=
  let (significand, wholeTaken) := takeDigits 0 whole
  let (significand, fractionTaken) := takeDigits significand fraction
  ⟨significand, exponent + (whole.length - wholeTaken : Nat) - fractionTaken⟩

end Magnitude

/-! ### Reading -/

/-- Takes a nonempty run of digits off the front of a text. -/
def readDigits : Reader Text
  | [] => .error .ended
  | c :: rest =>
    if c.isDigit then .ok ((c :: rest).takeWhile Char.isDigit, (c :: rest).dropWhile Char.isDigit)
    else .error .malformed

/-- The digits before the point: one zero, or digits of which the first is none. -/
def readWhole (text : Text) : Except Fault (Text × Text) := do
  let (digits, rest) ← readDigits text
  if Decimal.hasLeadingZero digits then throw .malformed else return (digits, rest)

/-- The digits behind the point, if there is one. -/
def readFraction : Reader (Option Text)
  | '.' :: rest => do
    let (digits, rest) ← readDigits rest
    return (some digits, rest)
  | text => .ok (none, text)

/-- The exponent, if there is one: a letter, perhaps a sign, and digits. -/
def readExponent : Reader (Option Int)
  | c :: rest =>
    if c = 'e' ∨ c = 'E' then do
      let (negative, rest) := match rest with
        | '-' :: rest => (true, rest)
        | '+' :: rest => (false, rest)
        | rest => (false, rest)
      let (digits, rest) ← readDigits rest
      let exponent : Int := Decimal.value digits
      return (some (if negative then -exponent else exponent), rest)
    else .ok (none, c :: rest)
  | [] => .ok (none, [])

/-- **Reads a number**, and gives its value if it is a natural number up to `maxNumber` that is
written plainly. -/
def readNumber (text : Text) : Except Fault (Option Nat × Text) := do
  let (negative, unsigned) := match text with
    | '-' :: rest => (true, rest)
    | text => (false, text)
  let (whole, rest) ← readWhole unsigned
  let (fraction, rest) ← readFraction rest
  let (exponent, rest) ← readExponent rest
  let plain := !negative && fraction.isNone && exponent.isNone
  if plain && Decimal.value whole ≤ maxNumber then return (some (Decimal.value whole), rest)
  else if (Magnitude.ofDigits whole (fraction.getD []) (exponent.getD 0)).overflows then
    throw .malformed
  else return (none, rest)

/-- Passes over a number whose value does not matter. -/
def skipNumber (text : Text) : Except Fault Text :=
  let parts : Except Fault Text := do
    let unsigned := match text with
      | '-' :: rest => rest
      | text => text
    let (_, rest) ← readWhole unsigned
    let (_, rest) ← readFraction rest
    let (_, rest) ← readExponent rest
    return rest
  parts.mapError fun _ => .malformed

end JuliaReleases.Json
