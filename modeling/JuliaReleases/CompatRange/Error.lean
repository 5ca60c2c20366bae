import JuliaReleases.Range.Format

/-!
# Why a range is refused

Ranges are written in two notations, the one of `JuliaReleases.Range.read` and the comma lists of
compat specifiers. A `JuliaReleases.RangeError` serves both: it repeats the text as it was given and
says what is wrong with it. `JuliaReleases.Range.ofText` reads a range of the first notation and
fails with such an error.
-/

namespace JuliaReleases

/-- Why a clause of a specifier is refused. -/
inductive ClauseFault where
  /-- Nothing stands between two commas, or at the end. -/
  | empty
  /-- The clause is the wildcard `*`. -/
  | wildcard
  /-- The clause starts with `<=`. -/
  | atMost
  /-- A hyphen has a blank on one side only. -/
  | unbalancedHyphen
  /-- The clause has several words and is no hyphen range. -/
  | severalBounds
  /-- An end of a hyphen range is no bare version, or there are more than two ends. -/
  | hyphenRange
  /-- The arm that the clause stands for is no range. -/
  | range (fault : RangeFault)
deriving DecidableEq

/-- The wording of a fault, to follow the clause. -/
def ClauseFault.message : ClauseFault → Text
  | .empty => "is empty".toList
  | .wildcard => "uses the '*' wildcard, which compat entries do not allow".toList
  | .atMost => "uses '<=', which compat entries only allow as a hyphen range".toList
  | .unbalancedHyphen => "has a hyphen that is not surrounded by spaces on both sides".toList
  | .severalBounds =>
    "combines several bounds, which is only supported as a hyphen range".toList
  | .hyphenRange => "is not a valid hyphen range".toList
  | .range fault => "is not a valid range: ".toList ++ fault.message

/-- What is wrong with the text of a range. -/
inductive RangeError.Reason where
  /-- It is not written as a range. -/
  | range (fault : RangeFault)
  /-- As a specifier it is blank. -/
  | noClause
  /-- As a specifier it has a clause that is refused; it is the first one. -/
  | clause (text : Text) (fault : ClauseFault)
deriving DecidableEq

/-- The wording of the reason. -/
def RangeError.Reason.message : RangeError.Reason → Text
  | .range fault => fault.message
  | .noClause => "no version range given".toList
  | .clause text fault => "clause ".toList ++ Text.quoted text ++ ' ' :: fault.message

/-- A text that was refused as a range, and why. -/
structure RangeError where
  text : Text
  reason : RangeError.Reason
deriving DecidableEq

/-- The wording of the error. -/
def RangeError.message (e : RangeError) : Text :=
  "Invalid version range ".toList ++ Text.quoted e.text ++ ": ".toList ++ e.reason.message

/-- Reads a range; the error repeats the whole text. -/
def Range.ofText (policy : PrereleasePolicy) (text : Text) : Except RangeError Range :=
  (Range.read policy text).mapError fun fault => ⟨text, .range fault⟩

end JuliaReleases
