import JuliaReleases.Version.Tag

/-!
# Requests for a version

What a user asks for is classified once, by `JuliaReleases.Request.read`: a complete version, a
nightly build, one of the words `min`, `lts` and `pre`, or else a range. Of the three words only
`min` may be written in capitals.

A nightly build belongs either to the development branch, `nightly`, or to a release branch, as in
`1.6-nightly`; `JuliaReleases.Nightly.branch?` recognises the latter.
-/

namespace JuliaReleases

/-! ### Nightly builds -/

namespace Nightly

/-- The word that every name of a nightly build ends in. -/
def word : Text :=
  "nightly".toList

/-- Whether a text is taken for the name of a nightly build: it ends in that word. -/
def IsName (text : Text) : Prop :=
  word <:+ text

instance (text : Text) : Decidable (IsName text) :=
  inferInstanceAs (Decidable (_ <:+ _))

/-- The branch, major and minor number, of a name such as `1.6-nightly`. -/
def branch? (text : Text) : Option (Nat × Nat) :=
  match Text.cut '-' text with
  | (branch, some rest) =>
    if rest = word then
      match Text.cut '.' branch with
      | (major, some minor) => do
        let major ← Decimal.read? major
        let minor ← Decimal.read? minor
        return (major, minor)
      | _ => none
    else none
  | _ => none

end Nightly

/-! ### Requests -/

/-- A classified request. -/
inductive Request where
  /-- This version, without a `v` in front. -/
  | exact (version : Text)
  /-- This nightly build. -/
  | nightly (name : Text)
  /-- The least release that the project allows. -/
  | min
  /-- The greatest release of the line with long-term support. -/
  | lts
  /-- The greatest version of the current major line, prereleases included. -/
  | pre
  /-- The greatest member of this range. -/
  | range (text : Text)
deriving DecidableEq

namespace Request

/-- **Classifies a request.** Blanks around it do not count. -/
def read (text : Text) : Request :=
  let text := Text.trim text
  if Tag.IsConcrete text then .exact (Tag.stripPrefix text)
  else if Nightly.IsName text then .nightly text
  else if Text.asciiLowercase text = "min".toList then .min
  else if text = "lts".toList then .lts
  else if text = "pre".toList then .pre
  else .range text

/-- The kind of a request, in one word. -/
def mode : Request → Text
  | exact _ => "exact".toList
  | nightly _ => "nightly".toList
  | min => "min".toList
  | lts => "lts".toList
  | pre => "pre".toList
  | range _ => "range".toList

/-- The text that a request carries, if it does. -/
def payload? : Request → Option Text
  | exact text | nightly text | range text => some text
  | min | lts | pre => none

end Request

end JuliaReleases
