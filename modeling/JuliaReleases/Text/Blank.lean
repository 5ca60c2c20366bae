import JuliaReleases.Text.Basic

/-!
# Blanks

A blank is a character with the Unicode property `White_Space`. The property holds of twenty-five
characters, among them the no-break space and the ideographic space, and not of the zero width
space or the byte order mark. `JuliaReleases.Text.trim` removes blanks from both ends of a text, and
`JuliaReleases.Text.words` gives the runs of other characters.
-/

namespace JuliaReleases

/-- The characters with the property `White_Space`, as intervals of code points. -/
def blankIntervals : List (Nat × Nat) :=
  [(0x9, 0xD), (0x20, 0x20), (0x85, 0x85), (0xA0, 0xA0), (0x1680, 0x1680), (0x2000, 0x200A),
    (0x2028, 0x2029), (0x202F, 0x202F), (0x205F, 0x205F), (0x3000, 0x3000)]

/-- Whether a character is a blank. -/
def isBlank (c : Char) : Bool :=
  blankIntervals.any fun (first, last) => first ≤ c.toNat && c.toNat ≤ last

namespace Text

/-- The text without the blanks at its start. -/
def trimLeft (text : Text) : Text :=
  text.dropWhile isBlank

/-- The text without the blanks at its end. -/
def trimRight (text : Text) : Text :=
  (text.reverse.dropWhile isBlank).reverse

/-- The text without the blanks at either end. -/
def trim (text : Text) : Text :=
  trimRight (trimLeft text)

/-- The maximal runs of characters that are no blanks, in order. -/
def words (text : Text) : List Text :=
  (text.splitOnP isBlank).filter fun word => !word.isEmpty

end Text

end JuliaReleases
