import JuliaReleases.Text.Blank
import JuliaReleases.Text.Decimal

/-!
# Settings

Two facts about the published releases change with time, so they are settings: which line of
releases has long-term support, and which major line is the current one.
-/

namespace JuliaReleases

/-- What the words `lts` and `pre` refer to. -/
structure Settings where
  /-- The line with long-term support, `major.minor`. -/
  lts : Text := "1.10".toList
  /-- The major number whose newest version `pre` selects. -/
  currentMajor : Nat := 1
deriving DecidableEq

namespace Settings

/-- Reads a number of the line, which may have a plus sign and leading zeros. -/
def readLineNumber? (text : Text) : Option Nat :=
  match text with
  | '+' :: digits => Decimal.read? digits
  | digits => Decimal.read? digits

/-- The line with long-term support as major and minor number, if it is written as such. -/
def ltsLine? (s : Settings) : Option (Nat × Nat) :=
  match Text.cut '.' (Text.trim s.lts) with
  | (major, some minor) => do
    let major ← readLineNumber? major
    let minor ← readLineNumber? minor
    return (major, minor)
  | _ => none

end Settings

end JuliaReleases
