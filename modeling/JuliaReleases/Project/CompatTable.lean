import JuliaReleases.CompatRange.Basic
import JuliaReleases.Project.Error
import JuliaReleases.Toml.Reader

/-!
# The compat table of a project file

A project states in its `compat` table which versions of each dependency it works with. The table
can be written in three ways: below a header `[compat]`, between braces as the value of `compat`,
and as single pairs with keys such as `compat.julia` above all headers. All three give
`JuliaReleases.CompatEntry` values, in the order of the document; entries that are no strings are
left out, and so is everything in other tables.

Which document a text is, is up to the parser. `JuliaReleases.Toml.Document.read?` reads the texts
that are TOML and no others, but a parser may as well go on behind a mistake. So the parser is a
parameter of `JuliaReleases.Project.entries`, and the reader of entries is one of everything that
comes after it.

The entry for Julia itself is a compat specifier (`JuliaReleases.Project.compatRange`). A project
without one works with every release.
-/

namespace JuliaReleases

/-- What a project states about one dependency. -/
structure CompatEntry where
  /-- The name of the dependency. -/
  name : Text
  specifier : Text
deriving DecidableEq

namespace Project

open Toml (Document Key Pair SimpleKey StringLiteral Table)

/-- The name of the compat table. -/
def compatTable : Text :=
  "compat".toList

/-- The dependency that stands for Julia itself. -/
def julia : Text :=
  "julia".toList

/-! ### Entries -/

/-- The text that a string stands for. -/
def stringValue (literal : StringLiteral) : Except ProjectError Text :=
  match literal.value? with
  | some text => .ok text
  | none => .error (.string literal)

/-- The name that a key without points stands for. -/
def keyName : SimpleKey → Except ProjectError Text
  | .bare name => .ok name
  | .quoted literal => stringValue literal

/-- The entry with a name, if the value is a string. -/
def entryOfValue (name : Text) : Toml.Value → Except ProjectError (List CompatEntry)
  | .string literal => (fun specifier => [⟨name, specifier⟩]) <$> stringValue literal
  | _ => .ok []

/-- The entry that a pair within the compat table makes, if it makes one; its key has no points. -/
def entryOfPair : Pair → Except ProjectError (List CompatEntry)
  | ({ first, others := [] }, value) => do
    let name ← keyName first
    entryOfValue name value
  | _ => .ok []

/-- The entries that the pairs of a compat table make. -/
def entriesOfPairs (pairs : List Pair) : Except ProjectError (List CompatEntry) :=
  List.flatten <$> pairs.mapM entryOfPair

/-- The entries that a pair above all headers makes. A name behind a point is taken by its looks. -/
def entriesOfRootPair (pair : Pair) : Except ProjectError (List CompatEntry) :=
  match pair.1.path with
  | [table] =>
    match pair.2 with
    | .inlineTable pairs => if table = compatTable then entriesOfPairs pairs else .ok []
    | _ => .ok []
  | [table, name] => if table = compatTable then entryOfValue name pair.2 else .ok []
  | _ => .ok []

/-- The entries that a table makes. -/
def entriesOfTable (table : Table) : Except ProjectError (List CompatEntry) :=
  if table.isElement = false ∧ table.key.path = [compatTable] then entriesOfPairs table.pairs
  else .ok []

/-- The compat entries of a document; the first string at fault is reported. -/
def entriesOfDocument (document : Document) : Except ProjectError (List CompatEntry) := do
  let above ← document.pairs.mapM entriesOfRootPair
  let below ← document.tables.mapM entriesOfTable
  return above.flatten ++ below.flatten

/-- **Reads the compat entries** of a project file: those of the document that the parser makes of
it. Mistakes in the text are the parser's concern; the only failure is that it makes no document. -/
def entries (text : Text) (parse : Text → Option Document := Document.read?) :
    Except ProjectError (List CompatEntry) :=
  match parse text with
  | some document => entriesOfDocument document
  | none => .error .malformed

/-- A way to read the compat entries of a project file. -/
abbrev EntryReader : Type :=
  Text → Except ProjectError (List CompatEntry)

/-! ### The range for Julia -/

/-- The compat range that the first entry for Julia states, if there is one. -/
def rangeOfEntries (entries : List CompatEntry) : Except ProjectError CompatRange :=
  match entries.find? (·.name = julia) with
  | none => .ok .any
  | some entry =>
    if Specifier.clauses entry.specifier = [] then .error (.blankEntry entry.specifier)
    else (CompatRange.ofSpecifier entry.specifier).mapError .range

/-- **The compat range of a project**, given the text of its file. -/
def compatRange (text : Text) (reader : EntryReader := fun text => entries text) :
    Except ProjectError CompatRange := do
  let entries ← reader text
  rangeOfEntries entries

end Project

end JuliaReleases
