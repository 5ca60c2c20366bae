import JuliaReleases.Range.Operator
import JuliaReleases.Version.Identifier

/-!
# Why a text is no range

`JuliaReleases.RangeFault` has one constructor for each cause, with the part of the text at fault;
`JuliaReleases.RangeFault.message` is the only place that words them.
-/

namespace JuliaReleases

/-- What a message says of a faulty prerelease. -/
def IdentifierFault.message : IdentifierFault → Text
  | .emptySegment => "empty identifier segment in pre-release identifier".toList
  | .leadingZero => "invalid leading zero in pre-release identifier".toList
  | .unexpectedCharacter => "unexpected character in pre-release identifier".toList

/-- Why a text is no range. -/
inductive RangeFault where
  /-- An operator, or an end of a hyphen range, without a version. -/
  | missingVersion
  /-- A `+` with nothing behind it. -/
  | emptyBuild (version : Text)
  /-- More than three numbers. -/
  | extraComponent (version : Text)
  /-- A component that is neither a numeral nor a wildcard. -/
  | notANumber (component : Text)
  /-- A numeral with a leading zero. -/
  | leadingZero (component : Text)
  /-- A numeral above `maxNumber`. -/
  | numberTooLarge (component : Text)
  /-- A `-` with nothing behind it. -/
  | emptyPrerelease (version : Text)
  /-- A prerelease of a version that lacks a number. -/
  | partialPrerelease (version : Text)
  /-- A prerelease that is not well formed. -/
  | prerelease (version : Text) (fault : IdentifierFault)
  /-- A hyphen range with more than two ends. -/
  | hyphenEnds
  /-- Two operators in a row, with a blank between them. -/
  | operatorAfter (first second : Operator)
  /-- An operator at the end of an arm. -/
  | operatorAtEnd (op : Operator)
  /-- Two operators in a row, without a blank between them. -/
  | repeatedOperator (token : Text)
deriving DecidableEq

namespace RangeFault

open Text (quoted) in
/-- The wording of a fault. -/
def message : RangeFault → Text
  | missingVersion => "missing version".toList
  | emptyBuild version => "empty build metadata in ".toList ++ quoted version
  | extraComponent version => quoted version ++ " has more than three version components".toList
  | notANumber component => quoted component ++ " is not a version number".toList
  | leadingZero component => quoted component ++ " has a leading zero".toList
  | numberTooLarge component =>
    quoted component ++ ": number too large to fit in target type".toList
  | emptyPrerelease version => "empty prerelease in ".toList ++ quoted version
  | partialPrerelease version =>
    "prerelease requires a full version in ".toList ++ quoted version
  | prerelease version fault => quoted version ++ ": ".toList ++ fault.message
  | hyphenEnds => "a hyphen range needs exactly two endpoints".toList
  | operatorAfter first second =>
    "operator ".toList ++ quoted first.write ++ " is followed by operator ".toList ++
      quoted second.write
  | operatorAtEnd op => "operator ".toList ++ quoted op.write ++ " is missing a version".toList
  | repeatedOperator token => quoted token ++ " has more than one operator".toList

end RangeFault

end JuliaReleases
