import JuliaReleases.Text.Decimal

/-!
# Identifiers of prereleases and of build metadata

What stands behind the three numbers of a version is a list of identifiers with points between
them: `rc1`, `beta.2`, or `0.3.7` in a prerelease, `5.linux` in build metadata. An identifier is a
nonempty run of ASCII letters, digits and hyphens; one made of digits only is **numeric**.

The two kinds differ in two points, so they are two types:

* a numeric `JuliaReleases.PreIdentifier` has no leading zero, and two of them compare as numbers;
* a numeric `JuliaReleases.BuildIdentifier` may have leading zeros, and of two that denote the same
  number the shorter one comes first.

In both, numeric identifiers come before the others, which compare character by character.
-/

namespace JuliaReleases

/-- Whether a character may stand in an identifier. -/
def isIdentifierChar (c : Char) : Bool :=
  c.isAlphanum || c == '-'

/-- An identifier is a nonempty text of ASCII letters, digits and hyphens. -/
def IsIdentifier (text : Text) : Prop :=
  text ≠ [] ∧ ∀ c ∈ text, isIdentifierChar c = true

instance (text : Text) : Decidable (IsIdentifier text) :=
  @instDecidableAnd _ _ inferInstance (List.decidableBAll _ text)

/-- An identifier of a prerelease has, if it is numeric, no leading zero. -/
def IsPreIdentifier (text : Text) : Prop :=
  IsIdentifier text ∧ ¬ (Decimal.isNumeral text = true ∧ Decimal.hasLeadingZero text = true)

instance (text : Text) : Decidable (IsPreIdentifier text) :=
  inferInstanceAs (Decidable (_ ∧ _))

/-! ### Prereleases -/

/-- One identifier of a prerelease. -/
structure PreIdentifier where
  /-- The identifier as it is written. -/
  text : Text
  /-- It is written the way prereleases allow. -/
  wellFormed : IsPreIdentifier text
deriving DecidableEq

/-- Why a text is no prerelease. -/
inductive IdentifierFault where
  /-- Nothing stands between two points, or at the end. -/
  | emptySegment
  /-- A numeric identifier has a leading zero. -/
  | leadingZero
  /-- A character is neither a letter, a digit, a hyphen nor a point. -/
  | unexpectedCharacter
deriving DecidableEq

namespace PreIdentifier

/-- The lowest identifier, `0`: no prerelease of a version comes before `-0`. -/
def lowest : PreIdentifier :=
  ⟨['0'], by decide⟩

/-- Whether the identifier is numeric. -/
def isNumeric (i : PreIdentifier) : Bool :=
  Decimal.isNumeral i.text

/-- Numeric identifiers come first. Without leading zeros the shorter of two numerals is the
smaller number, and numerals of one length compare like their texts. -/
instance : Ord PreIdentifier where
  compare := compareLex (compareOn fun i => !i.isNumeric)
    (compareLex (compareOn fun i => if i.isNumeric then i.text.length else 0)
      (compareOn fun i => i.text))

/-- What is wrong with a segment that is no identifier of a prerelease. It is read from the left as
far as the characters of identifiers go, and judged where they end. A character that no identifier
can start with is named as such only in the `first` segment. -/
def fault (first : Bool) (segment : Text) : IdentifierFault :=
  let scanned := segment.takeWhile isIdentifierChar
  if scanned = [] then
    if first ∧ segment ≠ [] then .unexpectedCharacter else .emptySegment
  else if Decimal.isNumeral scanned ∧ Decimal.hasLeadingZero scanned then .leadingZero
  else .unexpectedCharacter

/-- Reads one segment of a prerelease. -/
def read (first : Bool) (segment : Text) : Except IdentifierFault PreIdentifier :=
  if h : IsPreIdentifier segment then .ok ⟨segment, h⟩ else .error (fault first segment)

end PreIdentifier

/-- Reads the identifiers of a prerelease, which has at least one. -/
def readPrerelease (text : Text) : Except IdentifierFault (List PreIdentifier) :=
  match text.splitOn '.' with
  | [] => .error .emptySegment
  | segment :: segments => do
    let i ← PreIdentifier.read true segment
    let is ← segments.mapM (PreIdentifier.read false)
    return i :: is

/-! ### Build metadata -/

/-- One identifier of build metadata. -/
structure BuildIdentifier where
  /-- The identifier as it is written. -/
  text : Text
  /-- It is written the way build metadata allow. -/
  wellFormed : IsIdentifier text
deriving DecidableEq

namespace BuildIdentifier

/-- Whether the identifier is numeric. -/
def isNumeric (i : BuildIdentifier) : Bool :=
  Decimal.isNumeral i.text

/-- The digits of a numeric identifier behind its leading zeros; of any other, the whole text. -/
def significant (i : BuildIdentifier) : Text :=
  if i.isNumeric then i.text.dropWhile (· == '0') else i.text

/-- Numeric identifiers come first. They compare by the number they denote and then by their
length: `0`, `00`, `1`, `01`, `001`, `2`. -/
instance : Ord BuildIdentifier where
  compare := compareLex (compareOn fun i => !i.isNumeric)
    (compareLex (compareOn fun i => if i.isNumeric then i.significant.length else 0)
      (compareLex (compareOn fun i => i.significant) (compareOn fun i => i.text.length)))

/-- Reads one segment of build metadata. -/
def read? (segment : Text) : Option BuildIdentifier :=
  if h : IsIdentifier segment then some ⟨segment, h⟩ else none

end BuildIdentifier

/-- Reads the identifiers of build metadata, which have at least one. -/
def readBuild? (text : Text) : Option (List BuildIdentifier) :=
  (text.splitOn '.').mapM BuildIdentifier.read?

end JuliaReleases
