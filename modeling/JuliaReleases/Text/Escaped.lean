import JuliaReleases.Text.GraphemeExtend
import JuliaReleases.Text.Unprintable

/-!
# Escaped texts

Where a message shows the path of a file, the path stands between quotation marks, and whatever
could be mistaken or overlooked in it is escaped: quotation marks and backslashes, characters
without a shape, and those that are drawn upon others.
-/

namespace JuliaReleases.Text

/-- An escape by code point, with as few hexadecimal digits as possible. -/
def escapeCodePoint (c : Char) : Text :=
  ['\\', 'u', '\x7b'] ++ Nat.toDigits 16 c.toNat ++ ['\x7d']

/-- A character as it stands in an escaped text. -/
def escapeChar (c : Char) : Text :=
  match c with
  | '\x00' => ['\\', '0']
  | '\t' => ['\\', 't']
  | '\n' => ['\\', 'n']
  | '\r' => ['\\', 'r']
  | '"' => ['\\', '"']
  | '\\' => ['\\', '\\']
  | c => if isExtendingMark c || isUnprintable c then escapeCodePoint c else [c]

/-- A text between quotation marks, with escapes. -/
def escaped (text : Text) : Text :=
  '"' :: text.flatMap escapeChar ++ ['"']

end JuliaReleases.Text
