import JuliaReleases.Json.Reading
import JuliaReleases.Text.Hexadecimal

/-!
# String literals

A string literal stands between quotation marks. Marks, backslashes and control characters inside
it are escaped; so may be any other character. A character beyond the basic plane is escaped as a
**pair of surrogates**, which are no characters themselves.

* `JuliaReleases.Json.readString` reads a literal, and refuses a surrogate without its partner;
* `JuliaReleases.Json.skipString` passes over a literal whose value nobody asks for. It is content
  with any four hexadecimal digits, since there is no character to be made of them;
* `JuliaReleases.Json.writeString` writes a literal with as few escapes as there can be.
-/

namespace JuliaReleases.Json

/-! ### Escapes -/

/-- The number that the four hexadecimal digits at the front of a text denote. A text of less than
four bytes ends too early; in any other, what is no digit is at fault. -/
def hexQuad (text : Text) : Except Fault Nat :=
  match text with
  | a :: b :: c :: d :: _ =>
    match Hexadecimal.value? [a, b, c, d] with
    | some unit => .ok unit
    | none => .error .malformed
  | short =>
    let size := short.foldl (fun size c => size + c.utf8Size) 0
    if size < 4 then .error .ended else .error .malformed

/-- Whether a code unit is the first one of a pair of surrogates. -/
def isLeadingSurrogate (unit : Nat) : Bool :=
  0xD800 ≤ unit && unit ≤ 0xDBFF

/-- Whether a code unit is the second one of a pair of surrogates. -/
def isTrailingSurrogate (unit : Nat) : Bool :=
  0xDC00 ≤ unit && unit ≤ 0xDFFF

/-- The character that a pair of surrogates stands for. -/
def ofSurrogates (leading trailing : Nat) : Char :=
  Char.ofNat (0x10000 + (leading - 0xD800) * 0x400 + (trailing - 0xDC00))

/-- The second surrogate of a pair, escaped like the first, at the front of a text. -/
def trailingSurrogate (text : Text) : Except Fault Nat :=
  match text with
  | [] => .error .ended
  | ['\\'] => .error .ended
  | '\\' :: 'u' :: rest => do
    let unit ← hexQuad rest
    if isTrailingSurrogate unit then return unit else throw .malformed
  | _ => .error .malformed

/-- The character that one letter behind a backslash stands for. -/
def escapedChar? : Char → Option Char
  | '"' => some '"'
  | '\\' => some '\\'
  | '/' => some '/'
  | 'b' => some '\x08'
  | 'f' => some '\x0c'
  | 'n' => some '\n'
  | 'r' => some '\r'
  | 't' => some '\t'
  | _ => none

/-- The character that an escape stands for, and the number of characters behind the backslash that
make up the escape. -/
def escape (text : Text) : Except Fault (Char × Nat) :=
  match text with
  | [] => .error .ended
  | 'u' :: rest => do
    let unit ← hexQuad rest
    if isTrailingSurrogate unit then throw .malformed
    if isLeadingSurrogate unit then
      let trailing ← trailingSurrogate (rest.drop 4)
      return (ofSurrogates unit trailing, 11)
    return (Char.ofNat unit, 5)
  | c :: _ =>
    match escapedChar? c with
    | some d => .ok (d, 1)
    | none => .error .malformed

/-- The number of characters behind the backslash that make up an escape whose meaning does not
matter. -/
def escapeLength (text : Text) : Except Fault Nat :=
  match text with
  | [] => .error .ended
  | 'u' :: rest => do
    let _ ← hexQuad rest
    return 5
  | c :: _ => if (escapedChar? c).isSome then .ok 1 else .error .malformed

/-! ### Literals -/

/-- Whether a character must not stand in a literal as itself. -/
def isControl (c : Char) : Bool :=
  c.toNat < 0x20

/-- **Reads a string literal** whose first mark has been read. -/
def readString : Reader Text :=
  go 0
where
  /-- Reads on behind `skip` characters, which belong to an escape. -/
  go (skip : Nat) : Reader Text
    | [] => .error .ended
    | c :: rest =>
      match skip with
      | skip + 1 => go skip rest
      | 0 =>
        if c = '"' then .ok ([], rest)
        else if c = '\\' then do
          let (d, length) ← escape rest
          let (text, rest) ← go length rest
          return (d :: text, rest)
        else if isControl c then .error .malformed
        else do
          let (text, rest) ← go 0 rest
          return (c :: text, rest)

/-- Passes over a string literal whose first mark has been read. -/
def skipString (text : Text) : Except Fault Text :=
  go 0 text
where
  /-- Reads on behind `skip` characters, which belong to an escape. -/
  go (skip : Nat) : Text → Except Fault Text
    | [] => .error .ended
    | c :: rest =>
      match skip with
      | skip + 1 => go skip rest
      | 0 =>
        if c = '"' then .ok rest
        else if c = '\\' then do
          let length ← escapeLength rest
          go length rest
        else if isControl c then .error .malformed
        else go 0 rest

/-! ### Printing -/

/-- A control character without a letter of its own, as four hexadecimal digits. -/
def writeControl (c : Char) : Text :=
  ['\\', 'u', '0', '0', Nat.digitChar (c.toNat / 16), Nat.digitChar (c.toNat % 16)]

/-- A character as it stands in a literal. -/
def writeChar (c : Char) : Text :=
  match c with
  | '"' => ['\\', '"']
  | '\\' => ['\\', '\\']
  | '\x08' => ['\\', 'b']
  | '\x0c' => ['\\', 'f']
  | '\n' => ['\\', 'n']
  | '\r' => ['\\', 'r']
  | '\t' => ['\\', 't']
  | c => if isControl c then writeControl c else [c]

/-- **Writes a string literal**, marks included. -/
def writeString (text : Text) : Text :=
  '"' :: text.flatMap writeChar ++ ['"']

end JuliaReleases.Json
