import JuliaReleases.Version.Basic

/-!
# The written form of a version

A version is written `major.minor.patch`, then `-` and its prerelease, then `+` and its build
metadata, where it has them. `JuliaReleases.Version.write` prints this form and
`JuliaReleases.Version.read?` accepts it and nothing else: no blanks, no missing number, no leading
zeros, no number above `JuliaReleases.maxNumber`.
-/

namespace JuliaReleases

/-- Identifiers with points between them. -/
def dotted (identifiers : List Text) : Text :=
  ['.'].intercalate identifiers

namespace Version

/-- The written form of a version. -/
def write (v : Version) : Text :=
  dotted [Decimal.write v.major, Decimal.write v.minor, Decimal.write v.patch] ++
    (if v.pre = [] then [] else '-' :: dotted (v.pre.map (·.text))) ++
    (if v.build = [] then [] else '+' :: dotted (v.build.map (·.text)))

/-- Reads one of the three numbers. -/
def readNumber? (text : Text) : Option Nat :=
  if Decimal.hasLeadingZero text then none else Decimal.read? text

/-- **Reads the written form of a version.** The first `+` starts the build metadata, and the first
`-` before it the prerelease. -/
def read? (text : Text) : Option Version := do
  let (text, build) := Text.cut '+' text
  let (numbers, pre) := Text.cut '-' text
  match numbers.splitOn '.' with
  | [major, minor, patch] =>
    let major ← readNumber? major
    let minor ← readNumber? minor
    let patch ← readNumber? patch
    let pre ← match pre with
      | none => some []
      | some pre => (readPrerelease pre).toOption
    let build ← match build with
      | none => some []
      | some build => readBuild? build
    return { major, minor, patch, pre, build }
  | _ => none

end Version

end JuliaReleases
