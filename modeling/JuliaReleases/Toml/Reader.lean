import JuliaReleases.Toml.Document

/-!
# Reading TOML documents

`JuliaReleases.Toml.Document.read?` reads a document by the grammar of TOML 1.0, in which a pair
ends with its line, a table between braces has no line end and no comma at its end, and an array may
have both, and comments besides. Numbers, truth values, dates and times are not told apart: such a
value reaches to the comma, bracket, comment or line end that ends it.
-/

namespace JuliaReleases.Toml

/-! ### Blanks, comments and line ends -/

/-- Whether a character is a blank within a line. -/
def isLineBlank (c : Char) : Bool :=
  c == ' ' || c == '\t'

/-- The text behind the blanks at its front. -/
def skipBlanks (text : Text) : Text :=
  text.dropWhile isLineBlank

/-- The text behind all blanks, line ends and comments at its front. -/
def skipFiller (text : Text) : Text :=
  go false text
where
  /-- The text behind the filler; if `comment`, a comment has begun. -/
  go (comment : Bool) : Text → Text
    | [] => []
    | c :: rest =>
      if comment then go (c != '\n') rest
      else if StringLiteral.isFiller c then go false rest
      else if c = '#' then go true rest
      else c :: rest

/-- The next line, if nothing but blanks and a comment stands on the rest of this one. -/
def endLine? (text : Text) : Option Text :=
  match skipBlanks text with
  | [] => some []
  | '\n' :: rest => some rest
  | '\r' :: '\n' :: rest => some rest
  | '#' :: rest => some ((rest.dropWhile (· != '\n')).drop 1)
  | _ => none

/-! ### Keys -/

/-- Whether a character may stand in a bare key. -/
def isBareKeyChar (c : Char) : Bool :=
  c.isAlphanum || c == '-' || c == '_'

/-- Takes a key without points off the front of a text. -/
def takeSimpleKey (text : Text) : Option (SimpleKey × Text) :=
  match text with
  | [] => none
  | c :: _ =>
    if isBareKeyChar c then
      some (.bare (text.takeWhile isBareKeyChar), text.dropWhile isBareKeyChar)
    else do
      let (literal, rest) ← StringLiteral.take text
      if literal.multiline then none else some (.quoted literal, rest)

/-- Takes the simple keys that follow a point each off the front of a text. -/
def takeOtherKeys : Nat → Text → Option (List SimpleKey × Text)
  | 0, text => some ([], text)
  | bound + 1, text =>
    match skipBlanks text with
    | '.' :: rest => do
      let (key, rest) ← takeSimpleKey (skipBlanks rest)
      let (keys, rest) ← takeOtherKeys bound rest
      return (key :: keys, rest)
    | _ => some ([], text)

/-- Takes a key off the front of a text. -/
def takeKey (text : Text) : Option (Key × Text) := do
  let (first, rest) ← takeSimpleKey text
  let (others, rest) ← takeOtherKeys rest.length rest
  return ({ first, others }, rest)

/-- Takes a key and the sign of equality behind it off the front of a text. -/
def takeAssigned (text : Text) : Option (Key × Text) := do
  let (key, rest) ← takeKey text
  match skipBlanks rest with
  | '=' :: rest => some (key, skipBlanks rest)
  | _ => none

/-! ### Values -/

/-- Whether a character ends a value that is no string, array or table. -/
def endsPlain (c : Char) : Bool :=
  c == ',' || c == ']' || c == '\x7d' || c == '#' || c == '\n' || c == '\r'

mutual

/-- Takes a value off the front of a text; the bound is on the nesting and the number of items. -/
def takeValue : Nat → Text → Option (Value × Text)
  | 0, _ => none
  | bound + 1, text =>
    match text with
    | [] => none
    | '[' :: rest => do
      let rest ← skipElements bound (skipFiller rest)
      return (.other, rest)
    | '\x7b' :: rest =>
      match skipBlanks rest with
      | '\x7d' :: rest => some (.inlineTable [], rest)
      | rest => do
        let (pairs, rest) ← takeInlinePairs bound rest
        return (.inlineTable pairs, rest)
    | '"' :: _ | '\'' :: _ => do
      let (literal, rest) ← StringLiteral.take text
      return (.string literal, rest)
    | c :: _ =>
      if endsPlain c then none
      else some (.other, text.dropWhile fun c => !endsPlain c)

/-- Passes over the elements of an array from the next one, or its closing bracket, on. -/
def skipElements : Nat → Text → Option Text
  | 0, _ => none
  | bound + 1, text =>
    match text with
    | ']' :: rest => some rest
    | text => do
      let (_, rest) ← takeValue bound text
      match skipFiller rest with
      | ']' :: rest => some rest
      | ',' :: rest => skipElements bound (skipFiller rest)
      | _ => none

/-- Takes the pairs of a table between braces from the next one on, with the closing brace. -/
def takeInlinePairs : Nat → Text → Option (List Pair × Text)
  | 0, _ => none
  | bound + 1, text => do
    let (key, rest) ← takeAssigned text
    let (value, rest) ← takeValue bound rest
    match skipBlanks rest with
    | '\x7d' :: rest => some ([(key, value)], rest)
    | ',' :: rest => do
      let (pairs, rest) ← takeInlinePairs bound (skipBlanks rest)
      return ((key, value) :: pairs, rest)
    | _ => none

end

/-! ### Lines -/

/-- Takes the pairs up to the next header, or the end, off the front of a text. -/
def takePairs : Nat → Text → Option (List Pair × Text)
  | 0, text => some ([], text)
  | bound + 1, text =>
    match skipFiller text with
    | [] => some ([], [])
    | '[' :: rest => some ([], '[' :: rest)
    | text => do
      let (key, rest) ← takeAssigned text
      let (value, rest) ← takeValue rest.length rest
      let rest ← endLine? rest
      let (pairs, rest) ← takePairs bound rest
      return ((key, value) :: pairs, rest)

/-- Takes a header off the front of a text: whether its brackets are double, and its key. -/
def takeHeader (text : Text) : Option (Bool × Key × Text) :=
  match text with
  | '[' :: '[' :: rest => do
    let (key, rest) ← takeKey (skipBlanks rest)
    match skipBlanks rest with
    | ']' :: ']' :: rest => (true, key, ·) <$> endLine? rest
    | _ => none
  | '[' :: rest => do
    let (key, rest) ← takeKey (skipBlanks rest)
    match skipBlanks rest with
    | ']' :: rest => (false, key, ·) <$> endLine? rest
    | _ => none
  | _ => none

/-- Reads the tables from the next header, or the end, on. -/
def takeTables : Nat → Text → Option (List Table)
  | _, [] => some []
  | 0, _ => none
  | bound + 1, text => do
    let (isElement, key, rest) ← takeHeader text
    let (pairs, rest) ← takePairs (rest.length + 1) rest
    let tables ← takeTables bound rest
    return { isElement, key, pairs } :: tables

/-- A text without a byte order mark at its front. -/
def dropByteOrderMark : Text → Text
  | '\uFEFF' :: rest => rest
  | text => text

/-- **Reads a document.** A byte order mark at its front does not count. -/
def Document.read? (text : Text) : Option Document := do
  let (pairs, rest) ← takePairs (text.length + 1) (dropByteOrderMark text)
  let tables ← takeTables rest.length rest
  return { pairs, tables }

end JuliaReleases.Toml
