import JuliaReleases.Json.Skip

/-!
# Readers of values with a known shape

Readers for the shapes that occur in the documents of this library: truth values, natural numbers,
texts, values that may be `null`, arrays, objects with arbitrary keys, and **records**, whose fields
are known.

A record (`JuliaReleases.Json.readRecord`) is written as an object or, without the names, as an
array of its fields in their order. As an object it may have further fields, which are passed over,
but none of its own fields twice. What is missing at the end is for the record to judge.

Where a value of another shape stands, it is still read as far as its notation goes, if it is no
array and no object: a misspelt word or an open string comes first in reading order.
-/

namespace JuliaReleases.Json

/-! ### Scalars -/

/-- What is wrong with a text that does not start with a value of the shape asked for. -/
def mismatch : Text → Fault
  | [] => .ended
  | '[' :: _ => .mismatched
  | '{' :: _ => .mismatched
  | text =>
    match scalar text with
    | .ok _ => .mismatched
    | .error fault => fault
where
  /-- Reads a scalar whose value is of no use. -/
  scalar : Text → Except Fault Unit
    | 'n' :: rest => (fun _ => ()) <$> skipWord "ull".toList rest
    | 't' :: rest => (fun _ => ()) <$> skipWord "rue".toList rest
    | 'f' :: rest => (fun _ => ()) <$> skipWord "alse".toList rest
    | '"' :: rest => (fun _ => ()) <$> readString rest
    | c :: rest =>
      if c = '-' ∨ c.isDigit then (fun _ => ()) <$> readNumber (c :: rest) else .error .malformed
    | [] => .error .ended

/-- Reads a truth value. -/
def readBool : Reader Bool := fun text =>
  match skipBlanks text with
  | 't' :: rest => (true, ·) <$> skipWord "rue".toList rest
  | 'f' :: rest => (false, ·) <$> skipWord "alse".toList rest
  | text => .error (mismatch text)

/-- Reads a natural number up to `maxNumber`. -/
def readNat : Reader Nat := fun text =>
  match skipBlanks text with
  | c :: rest =>
    if c = '-' ∨ c.isDigit then
      match readNumber (c :: rest) with
      | .ok (some n, rest) => .ok (n, rest)
      | .ok (none, _) => .error .mismatched
      | .error fault => .error fault
    else .error (mismatch (c :: rest))
  | [] => .error .ended

/-- Reads a text. -/
def readText : Reader Text := fun text =>
  match skipBlanks text with
  | '"' :: rest => readString rest
  | text => .error (mismatch text)

/-- Reads `null` or a value. -/
def readOptional {α : Type} (read : Reader α) : Reader (Option α) := fun text =>
  match skipBlanks text with
  | 'n' :: rest => (none, ·) <$> skipWord "ull".toList rest
  | text => do
    let (a, rest) ← read text
    return (some a, rest)

/-! ### Arrays -/

/-- What lies ahead between the items of an array or an object. -/
inductive Ahead where
  /-- Another item, which starts here. -/
  | item (text : Text)
  /-- The closing bracket, which this follows. -/
  | close (rest : Text)
deriving DecidableEq

/-- What lies ahead behind the opening bracket of an array. -/
def firstElement (text : Text) : Except Fault Ahead :=
  match skipBlanks text with
  | [] => .error .ended
  | ']' :: rest => .ok (.close rest)
  | rest => .ok (.item rest)

/-- What lies ahead behind an element of an array. -/
def nextElement (text : Text) : Except Fault Ahead :=
  match skipBlanks text with
  | [] => .error .ended
  | ']' :: rest => .ok (.close rest)
  | ',' :: rest =>
    match skipBlanks rest with
    | [] => .error .ended
    | ']' :: _ => .error .malformed
    | rest => .ok (.item rest)
  | _ => .error .malformed

/-- Reads the elements of an array from what lies ahead. Every element takes a character off the
text, so its length bounds their number. -/
def readElements {α : Type} (read : Reader α) : Nat → Ahead → Except Fault (List α × Text)
  | _, .close rest => .ok ([], rest)
  | 0, .item _ => .error .ended
  | bound + 1, .item text => do
    let (a, rest) ← read text
    let (as, rest) ← readElements read bound (← nextElement rest)
    return (a :: as, rest)

/-- Reads an array. -/
def readArray {α : Type} (read : Reader α) : Reader (List α) := fun text =>
  match skipBlanks text with
  | '[' :: rest => do readElements read rest.length (← firstElement rest)
  | text => .error (mismatch text)

/-! ### Objects -/

/-- What lies ahead behind the opening bracket of an object; a member starts behind the mark that
opens its key. -/
def firstMember (text : Text) : Except Fault Ahead :=
  match skipBlanks text with
  | [] => .error .ended
  | '}' :: rest => .ok (.close rest)
  | '"' :: rest => .ok (.item rest)
  | _ => .error .malformed

/-- What lies ahead behind a member of an object. -/
def nextMember (text : Text) : Except Fault Ahead :=
  match skipBlanks text with
  | [] => .error .ended
  | '}' :: rest => .ok (.close rest)
  | ',' :: rest =>
    match skipBlanks rest with
    | [] => .error .ended
    | '"' :: rest => .ok (.item rest)
    | _ => .error .malformed
  | _ => .error .malformed

/-- The text of the value behind a key. -/
def skipColon (text : Text) : Except Fault Text :=
  match skipBlanks text with
  | [] => .error .ended
  | ':' :: rest => .ok rest
  | _ => .error .malformed

/-- Reads the members of an object from what lies ahead, threading a state through them. The length
of the text bounds their number. -/
def readMembers {σ : Type} (member : Text → σ → Reader σ) :
    Nat → σ → Ahead → Except Fault (σ × Text)
  | _, state, .close rest => .ok (state, rest)
  | 0, _, .item _ => .error .ended
  | bound + 1, state, .item text => do
    let (key, rest) ← readString text
    let (state, rest) ← member key state rest
    readMembers member bound state (← nextMember rest)

/-- Reads an object with arbitrary keys, as its members in their order. -/
def readEntries {α : Type} (read : Reader α) : Reader (List (Text × α)) := fun text =>
  match skipBlanks text with
  | '{' :: rest => do
    readMembers entry rest.length [] (← firstMember rest)
  | text => .error (mismatch text)
where
  /-- Reads the value of a key and adds both at the end. -/
  entry (key : Text) (entries : List (Text × α)) : Reader (List (Text × α)) := fun text => do
    let (a, rest) ← read (← skipColon text)
    return (entries ++ [(key, a)], rest)

/-! ### Records -/

/-- A field of a record that is read into a draft. -/
structure Field (σ : Type) where
  name : Text
  /-- Whether the draft has a value for the field already. -/
  isSet : σ → Bool
  /-- Reads a value for the field into the draft. -/
  read : σ → Reader σ

/-- A field, given how its value is read and where that stands in the draft. -/
def Field.of {σ α : Type} (name : String) (read : Reader α) (get : σ → Option α)
    (set : σ → α → σ) : Field σ where
  name := name.toList
  isSet draft := (get draft).isSome
  read draft text := do
    let (a, rest) ← read text
    return (set draft a, rest)

/-- Reads one member of a record: a field of its own, which must not be set, or one to pass over. -/
def readField {σ : Type} (fields : List (Field σ)) (key : Text) (draft : σ) : Reader σ :=
  fun text =>
    match fields.find? (·.name = key) with
    | some field =>
      if field.isSet draft then .error .mismatched
      else do field.read draft (← skipColon text)
    | none => do
      let rest ← skipValue (← skipColon text)
      return (draft, rest)

/-- Reads the fields of a record that is written as an array, as far as there are elements; there
must not be more. -/
def readFields {σ : Type} (ahead : Text → Except Fault Ahead) : List (Field σ) → σ → Reader σ
  | [], draft, text =>
    match skipBlanks text with
    | [] => .error .ended
    | ']' :: rest => .ok (draft, rest)
    | _ => .error .malformed
  | field :: fields, draft, text => do
    match ← ahead text with
    | .close rest => return (draft, rest)
    | .item text => do
      let (draft, rest) ← field.read draft text
      readFields nextElement fields draft rest

/-- **Reads a record**, given its fields, the draft to start from and how a draft is finished. A
draft that lacks a field cannot be finished. -/
def readRecord {σ α : Type} (fields : List (Field σ)) (draft : σ) (finish? : σ → Option α) :
    Reader α := fun text => do
  let (draft, rest) ← match skipBlanks text with
    | '{' :: rest => do
      readMembers (readField fields) rest.length draft (← firstMember rest)
    | '[' :: rest => readFields firstElement fields draft rest
    | text => throw (mismatch text)
  match finish? draft with
  | some a => return (a, rest)
  | none => throw .mismatched

/-! ### Documents -/

/-- Reads a whole document, behind which only blanks may follow. -/
def readDocument {α : Type} (read : Reader α) (text : Text) : Except Fault α := do
  let (a, rest) ← read text
  if skipBlanks rest = [] then return a else throw .malformed

end JuliaReleases.Json
