import JuliaReleases.Json.StringLiteral
import JuliaReleases.Text.Decimal

/-!
# Printing JSON

A `JuliaReleases.Json.Value` is a JSON value as far as the library writes any: numbers are natural,
and the members of an object keep their order. There are two layouts:
`JuliaReleases.Json.Value.compact`, without blanks, and `JuliaReleases.Json.Value.indented`, with
every element and member on a line of its own, two spaces deeper than what it belongs to. An empty
array or object is a pair of brackets in both.
-/

namespace JuliaReleases.Json

/-- A JSON value to be written. -/
inductive Value where
  | null
  | bool (b : Bool)
  | number (n : Nat)
  | text (text : Text)
  | array (elements : List Value)
  | object (members : List (Text × Value))

namespace Value

/-- A text that may be absent. -/
def ofText? : Option Text → Value
  | none => null
  | some t => text t

/-- A number that may be absent. -/
def ofNat? : Option Nat → Value
  | none => null
  | some n => number n

/-- The written form of a value in one line without blanks. -/
def compact : Value → Text
  | null => "null".toList
  | bool true => "true".toList
  | bool false => "false".toList
  | number n => Decimal.write n
  | text t => writeString t
  | array elements => '[' :: [','].intercalate (compactAll elements) ++ [']']
  | object members => '\x7b' :: [','].intercalate (compactMembers members) ++ ['\x7d']
where
  /-- The written forms of some elements. -/
  compactAll : List Value → List Text
    | [] => []
    | v :: vs => v.compact :: compactAll vs
  /-- The written forms of some members. -/
  compactMembers : List (Text × Value) → List Text
    | [] => []
    | (key, v) :: members => (writeString key ++ ':' :: v.compact) :: compactMembers members

/-- The start of a line at a depth. -/
def lineStart (depth : Nat) : Text :=
  '\n' :: List.replicate (2 * depth) ' '

/-- Items on lines of their own, between brackets, at a depth. -/
def block (opening closing : Char) (depth : Nat) (items : List Text) : Text :=
  match items with
  | [] => [opening, closing]
  | items =>
    opening :: [','].intercalate (items.map (lineStart (depth + 1) ++ ·)) ++
      lineStart depth ++ [closing]

/-- The written form of a value over several lines, the first of which is at the given depth. -/
def indented (depth : Nat) : Value → Text
  | null => "null".toList
  | bool true => "true".toList
  | bool false => "false".toList
  | number n => Decimal.write n
  | text t => writeString t
  | array elements => block '[' ']' depth (indentedAll (depth + 1) elements)
  | object members => block '\x7b' '\x7d' depth (indentedMembers (depth + 1) members)
where
  /-- The written forms of some elements. -/
  indentedAll (depth : Nat) : List Value → List Text
    | [] => []
    | v :: vs => v.indented depth :: indentedAll depth vs
  /-- The written forms of some members. -/
  indentedMembers (depth : Nat) : List (Text × Value) → List Text
    | [] => []
    | (key, v) :: members =>
      (writeString key ++ ':' :: ' ' :: v.indented depth) :: indentedMembers depth members

end Value

end JuliaReleases.Json
