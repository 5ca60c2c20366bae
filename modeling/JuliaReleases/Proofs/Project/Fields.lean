import JuliaReleases.Project.CompatTable
import JuliaReleases.Proofs.Reading
import JuliaReleases.Proofs.Toml.Key

/-!
# The fields of a project file

The three ways of writing the compat table have in common that each entry is a value at a key of two
parts. This file flattens a document to the list of these values, its
`JuliaReleases.Toml.Document.fields`, whichever way they are written, and reads the entries off the
list: one field after the other makes an entry or none (`JuliaReleases.Project.entryOfField`,
`JuliaReleases.Project.entries_eq`).

The flattening goes by the parts of a key, and the reader of entries by the looks of the key as a
whole. That both come to the same is where the grammar is needed: a single part with a point between
its marks never looks like the name of the compat table and a name in it.
-/

namespace JuliaReleases

namespace Toml

/-! ### Fields -/

/-- **A value at a key of two parts.** -/
structure Field where
  /-- Whether there is a point between the two parts, in the key of a pair above all headers. -/
  dotted : Bool
  table : SimpleKey
  name : SimpleKey
  value : Value

/-- The field that a pair in a table is; a longer key makes none. -/
def fieldsOfPair (table : SimpleKey) : Pair → List Field
  | ({ first, others := [] }, value) => [{ dotted := false, table, name := first, value }]
  | _ => []

/-- The fields that a pair above all headers makes. -/
def fieldsOfRootPair : Pair → List Field
  | ({ first, others := [] }, .inlineTable pairs) => pairs.flatMap (fieldsOfPair first)
  | ({ first, others := [second] }, value) =>
    [{ dotted := true, table := first, name := second, value }]
  | _ => []

/-- The fields that a table makes; an element of an array of tables makes none. -/
def fieldsOfTable : Table → List Field
  | { isElement := false, key := { first, others := [] }, pairs } =>
    pairs.flatMap (fieldsOfPair first)
  | _ => []

/-- **The fields of a document**, in its order. -/
def Document.fields (d : Document) : List Field :=
  d.pairs.flatMap fieldsOfRootPair ++ d.tables.flatMap fieldsOfTable

section Origin

variable {table : SimpleKey} {field : Field}

theorem table_of_mem_flatMap_fieldsOfPair {pairs : List Pair}
    (h : field ∈ pairs.flatMap (fieldsOfPair table)) :
    field.table = table ∧ field.dotted = false := by
  obtain ⟨pair, -, hfield⟩ := List.mem_flatMap.mp h
  unfold fieldsOfPair at hfield
  split at hfield
  · rw [List.mem_singleton.mp hfield]
    exact ⟨rfl, rfl⟩
  · exact absurd hfield List.not_mem_nil

/-- A field above all headers has the first part of the pair's key for its table, and the second one
for its name if a point is between them. -/
theorem table_of_mem_fieldsOfRootPair {pair : Pair} (h : field ∈ fieldsOfRootPair pair) :
    field.table = pair.1.first ∧ pair.1.others.length ≤ 1 ∧
      (field.dotted = true → field.name ∈ pair.1.others) := by
  unfold fieldsOfRootPair at h
  split at h
  · obtain ⟨htable, hdotted⟩ := table_of_mem_flatMap_fieldsOfPair h
    exact ⟨htable, Nat.zero_le _, fun h => absurd h (by simp [hdotted])⟩
  · rw [List.mem_singleton.mp h]
    exact ⟨rfl, le_rfl, fun _ => List.mem_singleton_self _⟩
  · exact absurd h List.not_mem_nil

theorem table_of_mem_fieldsOfTable {t : Table} (h : field ∈ fieldsOfTable t) :
    field.table = t.key.first ∧ t.key.others = [] ∧ t.isElement = false ∧
      field.dotted = false := by
  unfold fieldsOfTable at h
  split at h
  · obtain ⟨htable, hdotted⟩ := table_of_mem_flatMap_fieldsOfPair h
    exact ⟨htable, rfl, rfl, hdotted⟩
  · exact absurd h List.not_mem_nil

/-- The parts of a field's key are well formed, as far as looks count. -/
theorem wellFormed_of_mem_fields {d : Document} (h : d.WellFormed) (hfield : field ∈ d.fields) :
    field.table.WellFormed ∧ (field.dotted = true → field.name.WellFormed) := by
  rcases List.mem_append.mp hfield with hfield | hfield
  · obtain ⟨pair, hpair, hfield⟩ := List.mem_flatMap.mp hfield
    obtain ⟨htable, -, hname⟩ := table_of_mem_fieldsOfRootPair hfield
    exact ⟨htable ▸ h.pairs pair hpair _ List.mem_cons_self,
      fun hdotted => h.pairs pair hpair _ (List.mem_cons_of_mem _ (hname hdotted))⟩
  · obtain ⟨t, ht, hfield⟩ := List.mem_flatMap.mp hfield
    obtain ⟨htable, -, -, hdotted⟩ := table_of_mem_fieldsOfTable hfield
    exact ⟨htable ▸ h.headers t ht _ List.mem_cons_self, fun h => absurd h (by simp [hdotted])⟩

end Origin

end Toml

namespace Project

open Toml (Document Field Key Pair SimpleKey StringLiteral Table fieldsOfPair fieldsOfRootPair
  fieldsOfTable table_of_mem_fieldsOfRootPair table_of_mem_fieldsOfTable)

/-! ### Names and strings -/

theorem isBare_compatTable : Toml.IsBare compatTable := by
  decide

theorem isBare_julia : Toml.IsBare julia := by
  decide

theorem stringValue_eq_ok_iff {literal : StringLiteral} {text : Text} :
    stringValue literal = .ok text ↔ literal.value? = some text := by
  unfold stringValue
  cases literal.value? <;> simp

theorem keyName_eq_ok_iff {key : SimpleKey} {name : Text} :
    keyName key = .ok name ↔ key.name? = some name := by
  cases key with
  | bare name' => simp [keyName, SimpleKey.name?]
  | quoted literal => exact stringValue_eq_ok_iff

theorem entryOfValue_eq_ok_iff {name : Text} {literal : StringLiteral} {es : List CompatEntry} :
    entryOfValue name (.string literal) = .ok es ↔
      ∃ specifier, literal.value? = some specifier ∧ es = [⟨name, specifier⟩] := by
  rw [entryOfValue, map_eq_ok_iff]
  simp only [stringValue_eq_ok_iff, eq_comm (b := es)]

/-! ### Entries, field by field -/

/-- **The entry that a field makes**, if it makes one. The name of the table is taken by its looks,
and behind a point the name in it, too. -/
def entryOfField (field : Field) : Except ProjectError (List CompatEntry) :=
  if field.table.looks = [compatTable] then
    if field.dotted then
      match field.name.looks with
      | [name] => entryOfValue name field.value
      | _ => .ok []
    else entryOfPair ({ first := field.name }, field.value)
  else .ok []

theorem entryOfField_of_ne {field : Field} (h : field.table.looks ≠ [compatTable]) :
    entryOfField field = .ok [] :=
  if_neg h

theorem entriesOfPairs_eq {table : SimpleKey} (h : table.looks = [compatTable])
    (pairs : List Pair) : entriesOfPairs pairs =
      List.flatten <$> (pairs.flatMap (fieldsOfPair table)).mapM entryOfField := by
  refine flatten_mapM_flatMap fun pair _ => ?_
  obtain ⟨⟨first, _ | ⟨second, others⟩⟩, value⟩ := pair
  · have hentry : entryOfField { dotted := false, table, name := first, value } =
        entryOfPair ({ first }, value) := if_pos h
    rw [fieldsOfPair, flatten_mapM_singleton, hentry]
  · rfl

/-! ### Pairs above all headers -/

/-- A pair above all headers makes nothing if its key does not look like one of two parts at most
that begins with the name of the compat table. -/
theorem entriesOfRootPair_of_ne {pair : Pair} (hone : pair.1.path ≠ [compatTable])
    (htwo : ∀ name, pair.1.path ≠ [compatTable, name]) : entriesOfRootPair pair = .ok [] := by
  unfold entriesOfRootPair
  split
  · next table hpath =>
    split
    · exact if_neg fun h => hone (by rw [hpath, h])
    · rfl
  · next table name hpath => exact if_neg fun h => htwo name (by rw [hpath, h])
  · rfl

section Looks

variable {first : SimpleKey} (h : first.looks = [compatTable])
include h

theorem path_of_looks (others : List SimpleKey) :
    Key.path { first, others } = compatTable :: others.flatMap SimpleKey.looks := by
  rw [Key.path_eq_flatMap_looks, List.flatMap_cons, h, List.singleton_append]

theorem entriesOfRootPair_single (value : Toml.Value) : entriesOfRootPair ({ first }, value) =
    List.flatten <$> (fieldsOfRootPair ({ first }, value)).mapM entryOfField := by
  have hpath := path_of_looks h []
  cases value with
  | inlineTable pairs =>
    rw [fieldsOfRootPair, ← entriesOfPairs_eq h, entriesOfRootPair, hpath]
    exact if_pos rfl
  | string literal =>
    rw [entriesOfRootPair, hpath]
    rfl
  | other =>
    rw [entriesOfRootPair, hpath]
    rfl

theorem entriesOfRootPair_double (second : SimpleKey) (value : Toml.Value) :
    entriesOfRootPair ({ first, others := [second] }, value) = List.flatten <$>
      (fieldsOfRootPair ({ first, others := [second] }, value)).mapM entryOfField := by
  have hpath := path_of_looks h [second]
  rw [List.flatMap_singleton] at hpath
  rw [fieldsOfRootPair, flatten_mapM_singleton, entriesOfRootPair, hpath, entryOfField, if_pos h,
    if_pos rfl]
  obtain ⟨name, more, hname⟩ := List.exists_cons_of_ne_nil second.looks_ne_nil
  rw [hname]
  cases more with
  | nil => exact if_pos rfl
  | cons next more => rfl

/-- Three parts look like three names at least. -/
theorem entriesOfRootPair_longer (second third : SimpleKey) (others : List SimpleKey)
    (value : Toml.Value) :
    entriesOfRootPair ({ first, others := second :: third :: others }, value) = .ok [] := by
  have hpath := path_of_looks h (second :: third :: others)
  obtain ⟨name, more, hname⟩ := List.exists_cons_of_ne_nil second.looks_ne_nil
  obtain ⟨name', more', hname'⟩ := List.exists_cons_of_ne_nil third.looks_ne_nil
  rw [List.flatMap_cons, List.flatMap_cons, hname, hname'] at hpath
  refine entriesOfRootPair_of_ne ?_ fun _ => ?_ <;>
    · rw [hpath]
      simp

end Looks

theorem entriesOfRootPair_eq {pair : Pair} (h : pair.1.WellFormed) : entriesOfRootPair pair =
    List.flatten <$> (fieldsOfRootPair pair).mapM entryOfField := by
  by_cases hlooks : pair.1.first.looks = [compatTable]
  · obtain ⟨⟨first, _ | ⟨second, _ | ⟨third, others⟩⟩⟩, value⟩ := pair
    · exact entriesOfRootPair_single hlooks value
    · exact entriesOfRootPair_double hlooks second value
    · exact entriesOfRootPair_longer hlooks second third others value
  · -- Nothing is made of the pair as a whole, and nothing of its fields.
    have hfields : ∀ field ∈ fieldsOfRootPair pair, entryOfField field = .ok [] :=
      fun field hfield => entryOfField_of_ne fun hfield' =>
        hlooks ((table_of_mem_fieldsOfRootPair hfield).1 ▸ hfield')
    have hpath : ∀ more, pair.1.path ≠ compatTable :: more := fun more hpath =>
      hlooks ((Key.path_eq_cons_iff h isBare_compatTable).mp hpath).1
    rw [flatten_mapM_of_nil hfields]
    exact entriesOfRootPair_of_ne (hpath []) fun name => hpath [name]

/-! ### Tables and documents -/

theorem entriesOfTable_eq {table : Table} (h : table.key.WellFormed) : entriesOfTable table =
    List.flatten <$> (fieldsOfTable table).mapM entryOfField := by
  obtain ⟨isElement, ⟨first, others⟩, pairs⟩ := table
  by_cases hcompat : isElement = false ∧ Key.path { first, others } = [compatTable]
  · obtain ⟨rfl, hpath⟩ := hcompat
    obtain ⟨hlooks, hothers⟩ := (Key.path_eq_cons_iff h isBare_compatTable).mp hpath
    obtain rfl : others = [] := by
      cases others with
      | nil => rfl
      | cons second others =>
        exact absurd (List.append_eq_nil_iff.mp hothers).1 second.looks_ne_nil
    rw [fieldsOfTable, ← entriesOfPairs_eq hlooks]
    exact if_pos ⟨rfl, hpath⟩
  · have hfields : ∀ field ∈ fieldsOfTable { isElement, key := { first, others }, pairs },
        entryOfField field = .ok [] := fun field hfield => by
      obtain ⟨htable, rfl, rfl, -⟩ := table_of_mem_fieldsOfTable hfield
      refine entryOfField_of_ne fun hlooks => hcompat ⟨rfl, ?_⟩
      exact (Key.path_eq_cons_iff h isBare_compatTable).mpr ⟨htable ▸ hlooks, rfl⟩
    rw [flatten_mapM_of_nil hfields]
    exact if_neg hcompat

/-- **The entries of a document are those of its fields.** -/
theorem entriesOfDocument_eq {d : Document} (h : d.WellFormed) :
    entriesOfDocument d = List.flatten <$> d.fields.mapM entryOfField := by
  have hpairs := flatten_mapM_flatMap fun pair hmem => entriesOfRootPair_eq (h.pairs pair hmem)
  have htables := flatten_mapM_flatMap fun table hmem =>
    entriesOfTable_eq (h.headers table hmem)
  rw [Document.fields, flatten_mapM_append, ← hpairs, ← htables, entriesOfDocument]
  cases d.pairs.mapM entriesOfRootPair with
  | error e => rfl
  | ok above => cases d.tables.mapM entriesOfTable <;> rfl

theorem entries_eq {text : Text} {d : Document} (h : Document.read? text = some d) :
    entries text = List.flatten <$> d.fields.mapM entryOfField := by
  rw [entries, h, ← entriesOfDocument_eq (Toml.Document.wellFormed_of_read? h)]

end Project

end JuliaReleases
