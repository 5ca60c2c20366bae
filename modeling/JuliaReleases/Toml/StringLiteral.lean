import JuliaReleases.Text.Hexadecimal

/-!
# String literals of TOML

A literal stands between quotation marks, and then escapes in it have a meaning, or between
apostrophes, and then nothing has. One whose marks are written three times may extend over several
lines; such a literal ends at the first three marks in a row that are not escaped, except that one
or two further marks right behind the body belong to it.

A `JuliaReleases.Toml.StringLiteral` keeps its body as it is written.
`JuliaReleases.Toml.StringLiteral.source` puts the marks back, and
`JuliaReleases.Toml.StringLiteral.value?` finds the text that the literal stands for. There is none
if an escape names a code point that is no character.
-/

namespace JuliaReleases.Toml

/-- The mark that a literal stands between. -/
inductive Quote where
  /-- The quotation mark; escapes have a meaning. -/
  | double
  /-- The apostrophe; nothing has a meaning. -/
  | single
deriving DecidableEq

/-- The mark as a character. -/
def Quote.mark : Quote → Char
  | double => '"'
  | single => '\''

/-- A string literal. -/
structure StringLiteral where
  quote : Quote
  /-- Whether the marks are written three times. -/
  multiline : Bool
  /-- What stands between the marks, as it is written. -/
  body : Text
deriving DecidableEq

namespace StringLiteral

/-- The literal as it is written. -/
def source (l : StringLiteral) : Text :=
  let marks := List.replicate (if l.multiline then 3 else 1) l.quote.mark
  marks ++ l.body ++ marks

/-! ### Reading -/

/-- Whether a character makes the next one lose its meaning. -/
def Quote.isEscape (q : Quote) (c : Char) : Bool :=
  q = .double && c == '\\'

/-- The rest of a body on one line, and what follows the literal. If `escaped`, a backslash has been
read. -/
def takeLine (q : Quote) (escaped : Bool) : Text → Option (Text × Text)
  | [] => none
  | c :: rest =>
    if c = '\n' then none
    else if escaped = false ∧ c = q.mark then some ([], rest)
    else do
      let (body, rest) ← takeLine q (!escaped && Quote.isEscape q c) rest
      return (c :: body, rest)

/-- The rest of a body that may extend over several lines, and what follows the literal. -/
def takeBlock (q : Quote) (escaped : Bool) : Text → Option (Text × Text)
  | [] => none
  | c :: rest =>
    let marks := ((c :: rest).takeWhile (· == q.mark)).length
    if escaped = false ∧ marks ≥ 3 then
      let further := min (marks - 3) 2
      some (List.replicate further q.mark, (c :: rest).drop (further + 3))
    else do
      let (body, rest) ← takeBlock q (!escaped && Quote.isEscape q c) rest
      return (c :: body, rest)

/-- Takes a literal with a given mark off the front of a text. -/
def takeQuoted (q : Quote) (text : Text) : Option (StringLiteral × Text) :=
  match Text.dropPrefix? (List.replicate 3 q.mark) text with
  | some rest => do
    let (body, rest) ← takeBlock q false rest
    return ({ quote := q, multiline := true, body }, rest)
  | none => do
    let (body, rest) ← takeLine q false (text.drop 1)
    return ({ quote := q, multiline := false, body }, rest)

/-- Takes a literal off the front of a text. -/
def take (text : Text) : Option (StringLiteral × Text) :=
  match text with
  | '"' :: _ => takeQuoted .double text
  | '\'' :: _ => takeQuoted .single text
  | _ => none

/-! ### Values -/

/-- Whether a character is a blank or ends a line. -/
def isFiller (c : Char) : Bool :=
  c == ' ' || c == '\t' || c == '\n' || c == '\r'

/-- The character whose code point the first `digits` characters of a text denote. -/
def codePoint? (digits : Nat) (text : Text) : Option Char := do
  let code ← Hexadecimal.value? (text.take digits)
  if digits ≤ text.length ∧ code.isValidChar then some (Char.ofNat code) else none

/-- What an escape stands for, and the number of characters behind the backslash that make it up.
A backslash at the end of a line stands for nothing and takes all blanks and line ends with it. -/
def escape? (text : Text) : Option (Text × Nat) :=
  match text with
  | 'b' :: _ => some (['\x08'], 1)
  | 't' :: _ => some (['\t'], 1)
  | 'n' :: _ => some (['\n'], 1)
  | 'f' :: _ => some (['\x0c'], 1)
  | 'r' :: _ => some (['\r'], 1)
  | '"' :: _ => some (['"'], 1)
  | '\\' :: _ => some (['\\'], 1)
  | 'u' :: rest => (codePoint? 4 rest).map ([·], 5)
  | 'U' :: rest => (codePoint? 8 rest).map ([·], 9)
  | text =>
    let filler := text.takeWhile isFiller
    if '\n' ∈ filler then some ([], filler.length) else none

/-- The text that a body with escapes stands for. -/
def unescape? (body : Text) : Option Text :=
  go 0 body
where
  /-- The text that the rest of a body stands for, of which `skip` characters belong to an
  escape. -/
  go (skip : Nat) : Text → Option Text
    | [] => some []
    | c :: rest =>
      match skip with
      | skip + 1 => go skip rest
      | 0 =>
        if c = '\\' then do
          let (text, length) ← escape? rest
          (text ++ ·) <$> go length rest
        else (c :: ·) <$> go 0 rest

/-- A body without the end of a line at its front. -/
def dropLineEnd : Text → Text
  | '\n' :: rest => rest
  | '\r' :: '\n' :: rest => rest
  | body => body

/-- **The text that a literal stands for.** In a literal over several lines the end of the first
line does not count if nothing precedes it. -/
def value? (l : StringLiteral) : Option Text :=
  let body := if l.multiline then dropLineEnd l.body else l.body
  match l.quote with
  | .double => unescape? body
  | .single => some body

end StringLiteral

end JuliaReleases.Toml
