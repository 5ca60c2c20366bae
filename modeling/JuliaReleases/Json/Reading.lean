import JuliaReleases.Text.Basic

/-!
# Reading JSON from left to right

The library reads its JSON documents straight into its own types. A document is judged in **reading
order**: what is refused is the first thing from the left that is wrong, be it the notation or the
shape. So a `JuliaReleases.Json.Reader` takes a value off the front of a text and leaves the rest,
and its faults tell three situations apart (`JuliaReleases.Json.Fault`).

This file holds the reader type and what all readers share: blanks between tokens, and the words
`true`, `false` and `null`.
-/

namespace JuliaReleases.Json

/-- Why a document is refused. -/
inductive Fault where
  /-- It is not JSON. -/
  | malformed
  /-- So far it is JSON, but a value has not the shape that its place asks for. -/
  | mismatched
  /-- It ends too early. -/
  | ended
deriving DecidableEq

/-- Takes a value off the front of a text. -/
abbrev Reader (α : Type) : Type :=
  Text → Except Fault (α × Text)

/-- Whether a character is a blank between the tokens of a document. -/
def isBlank (c : Char) : Bool :=
  c == ' ' || c == '\t' || c == '\n' || c == '\r'

/-- The text behind the blanks at its front. -/
def skipBlanks (text : Text) : Text :=
  text.dropWhile isBlank

/-- Takes the given characters off the front, one after the other. -/
def skipWord : Text → Text → Except Fault Text
  | [], text => .ok text
  | _ :: _, [] => .error .ended
  | c :: word, d :: text => if c = d then skipWord word text else .error .malformed

end JuliaReleases.Json
