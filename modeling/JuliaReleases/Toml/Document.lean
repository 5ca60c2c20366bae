import JuliaReleases.Text.Blank
import JuliaReleases.Toml.StringLiteral

/-!
# TOML documents as they are written

A project file is asked for one table only, so a `JuliaReleases.Toml.Document` is the document as it
is written and not the value it stands for: tables may occur twice, keys are not looked up, and
every value that is neither a string nor a table in one line is an `other`.

Keys are compared in two ways. `JuliaReleases.Toml.SimpleKey.name?` is the name that a key stands
for, with escapes replaced. `JuliaReleases.Toml.Key.path` takes a key by its looks: its parts are
what stands between points, without blanks and marks around it, but with every escape left as it is.
-/

namespace JuliaReleases.Toml

/-! ### Keys -/

/-- A key without points. -/
inductive SimpleKey where
  /-- Letters, digits, hyphens and underscores. -/
  | bare (name : Text)
  /-- A string literal. -/
  | quoted (literal : StringLiteral)
deriving DecidableEq

/-- The key as it is written. -/
def SimpleKey.source : SimpleKey → Text
  | bare name => name
  | quoted literal => literal.source

/-- The simple keys of which a key consists; the others follow a point each. -/
structure Key where
  first : SimpleKey
  others : List SimpleKey := []
deriving DecidableEq

namespace Key

/-- The key as it is written, without blanks around its points. -/
def source (k : Key) : Text :=
  ['.'].intercalate ((k.first :: k.others).map SimpleKey.source)

/-- A text without a mark at either end, if the same one stands at both. -/
def unquote (text : Text) : Text :=
  match text with
  | '"' :: rest => if rest.getLast? = some '"' then rest.dropLast else text
  | '\'' :: rest => if rest.getLast? = some '\'' then rest.dropLast else text
  | text => text

/-- The parts of a key by its looks: whatever stands between points, be they inside marks or not. -/
def path (k : Key) : List Text :=
  (k.source.splitOn '.').map fun part => unquote (Text.trim part)

end Key

/-! ### Values and tables -/

/-- A value, as far as anybody asks. -/
inductive Value where
  /-- A string. -/
  | string (literal : StringLiteral)
  /-- A table between braces. -/
  | inlineTable (pairs : List (Key × Value))
  /-- A number, a truth value, a date, a time or an array. -/
  | other

/-- A key and its value. -/
abbrev Pair : Type :=
  Key × Value

/-- A header and the pairs below it. -/
structure Table where
  /-- Whether the header has double brackets, which adds the table to an array of tables. -/
  isElement : Bool
  key : Key
  pairs : List Pair

/-- A document: the pairs above all headers, and the tables. -/
structure Document where
  pairs : List Pair
  tables : List Table

end JuliaReleases.Toml
