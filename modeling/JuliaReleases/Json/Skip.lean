import JuliaReleases.Json.Number
import JuliaReleases.Json.StringLiteral

/-!
# Passing over a value

A record may have fields that the library does not know. Their values must be JSON, of any shape and
nested to any depth, and are passed over by `JuliaReleases.Json.skipValue`. The brackets that are
open are kept on a stack, so depth costs nothing but its length.
-/

namespace JuliaReleases.Json

/-- A bracket that has been opened. -/
inductive Bracket where
  | array
  | object
deriving DecidableEq

/-- What stands next inside a value. -/
inductive Expected where
  /-- A value. -/
  | value
  /-- A key, a colon and a value. -/
  | member
  /-- A comma, or the end of what was opened last. -/
  | separator
deriving DecidableEq

/-- Passes over a value that is no array and no object. -/
def skipScalar : Text → Except Fault Text
  | [] => .error .ended
  | 'n' :: rest => skipWord "ull".toList rest
  | 't' :: rest => skipWord "rue".toList rest
  | 'f' :: rest => skipWord "alse".toList rest
  | '"' :: rest => skipString rest
  | c :: rest => if c = '-' ∨ c.isDigit then skipNumber (c :: rest) else .error .malformed

/-- Passes over the key of a member and the colon behind it. -/
def skipKey : Text → Except Fault Text
  | [] => .error .ended
  | '"' :: rest => do
    match skipBlanks (← skipString rest) with
    | [] => throw .ended
    | ':' :: rest => return rest
    | _ => throw .malformed
  | _ => .error .malformed

/-- Passes over the rest of a value, given the brackets that are open, the last one first. Every
step takes a character off the text or turns to a separator, so twice the length of the text bounds
their number. -/
def skipFrom : Nat → List Bracket → Expected → Text → Except Fault Text
  | 0, _, _, _ => .error .ended
  | bound + 1, opened, .value, text =>
    match skipBlanks text with
    | '[' :: rest =>
      match skipBlanks rest with
      | ']' :: rest => skipFrom bound opened .separator rest
      | rest => skipFrom bound (.array :: opened) .value rest
    | '{' :: rest =>
      match skipBlanks rest with
      | '}' :: rest => skipFrom bound opened .separator rest
      | rest => skipFrom bound (.object :: opened) .member rest
    | text => do
      let rest ← skipScalar text
      skipFrom bound opened .separator rest
  | bound + 1, opened, .member, text => do
    let rest ← skipKey (skipBlanks text)
    skipFrom bound opened .value rest
  | bound + 1, opened, .separator, text =>
    match opened, skipBlanks text with
    | [], _ => .ok text
    | _ :: _, [] => .error .ended
    | .array :: opened, ',' :: rest => skipFrom bound (.array :: opened) .value rest
    | .object :: opened, ',' :: rest => skipFrom bound (.object :: opened) .member rest
    | .array :: opened, ']' :: rest => skipFrom bound opened .separator rest
    | .object :: opened, '}' :: rest => skipFrom bound opened .separator rest
    | _ :: _, _ => .error .malformed

/-- **Passes over a value of any shape.** -/
def skipValue (text : Text) : Except Fault Text :=
  skipFrom (2 * text.length + 2) [] .value text

end JuliaReleases.Json
