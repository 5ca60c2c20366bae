import JuliaReleases.Proofs.Project.Fields
import JuliaReleases.Proofs.Toml.Reader

/-!
# Three spellings of the compat table

The same names and strings can be written below a header, between braces, and as single pairs with
points in their keys: `JuliaReleases.Project.tableText`, `JuliaReleases.Project.inlineText` and
`JuliaReleases.Project.dottedText`. As documents they have the same fields, except that a name
stands behind a point in the last one, where it is taken by its looks.

So the first two always have the same entries, or the same fault. The third one agrees with them as
long as every key is what it looks like (`JuliaReleases.Toml.SimpleKey.Plain`), and otherwise never
does, unless a string is at fault: `JuliaReleases.spellings_agree_iff_plain`.
-/

namespace JuliaReleases

namespace Project

open Toml (Document Field Key Pair SimpleKey StringLiteral Table assignment linesText pairsText)

/-! ### The spellings -/

/-- The key of the compat table. -/
def compatKey : SimpleKey :=
  .bare compatTable

/-- The compat table below a header, with one name and its string on each line. -/
def tableText (items : List (SimpleKey × StringLiteral)) : Text :=
  "[compat]\n".toList ++ linesText (items.map fun item => ({ first := item.1 }, item.2))

/-- The compat table between braces. -/
def inlineText (items : List (SimpleKey × StringLiteral)) : Text :=
  "compat = \x7b ".toList ++
    (pairsText (items.map fun item => ({ first := item.1 }, item.2)) ++ " \x7d\n".toList)

/-- The compat table as pairs with points in their keys, one on each line. -/
def dottedText (items : List (SimpleKey × StringLiteral)) : Text :=
  linesText (items.map fun item => ({ first := compatKey, others := [item.1] }, item.2))

theorem wellFormed_compatKey : compatKey.WellFormed :=
  isBare_compatTable

theorem wellFormed_single (name : SimpleKey) (h : name.WellFormed) :
    Key.WellFormed { first := name } :=
  List.forall_mem_singleton.mpr h

theorem wellFormed_dotted (name : SimpleKey) (h : name.WellFormed) :
    Key.WellFormed { first := compatKey, others := [name] } :=
  List.forall_mem_cons.mpr ⟨wellFormed_compatKey, List.forall_mem_singleton.mpr h⟩

section Read

variable {items : List (SimpleKey × StringLiteral)}
  (h : ∀ item ∈ items, item.1.WellFormed ∧ item.2.OnLine)
include h

theorem wellFormed_of_mem_map {k : SimpleKey → Key}
    (hk : ∀ name : SimpleKey, name.WellFormed → (k name).WellFormed) :
    ∀ line ∈ items.map fun item => (k item.1, item.2), line.1.WellFormed ∧ line.2.OnLine := by
  intro line hline
  obtain ⟨item, hitem, rfl⟩ := List.mem_map.mp hline
  exact ⟨hk _ (h item hitem).1, (h item hitem).2⟩

theorem read?_tableText : Document.read? (tableText items) = some
    { pairs := []
      tables := [{ isElement := false
                   key := { first := compatKey }
                   pairs := items.map fun item => ({ first := item.1 }, .string item.2) }] } := by
  have hread := Toml.read?_header (wellFormed_single compatKey wellFormed_compatKey)
    (wellFormed_of_mem_map h wellFormed_single)
  rw [List.map_map] at hread
  exact hread

theorem read?_inlineText (hne : items ≠ []) : Document.read? (inlineText items) = some
    { pairs := [({ first := compatKey },
        .inlineTable (items.map fun item => ({ first := item.1 }, .string item.2)))]
      tables := [] } := by
  have hread := Toml.read?_inlineTable (wellFormed_single compatKey wellFormed_compatKey)
    (by simpa using hne) (wellFormed_of_mem_map h wellFormed_single)
  rw [List.map_map] at hread
  exact hread

theorem read?_dottedText : Document.read? (dottedText items) = some
    { pairs := items.map fun item =>
        ({ first := compatKey, others := [item.1] }, .string item.2)
      tables := [] } := by
  have hread := Toml.read?_lines (wellFormed_of_mem_map h wellFormed_dotted)
  rw [List.map_map] at hread
  exact hread

end Read

/-! ### Their fields -/

/-- The field that a name and its string make. -/
def fieldOfItem (dotted : Bool) (item : SimpleKey × StringLiteral) : Field :=
  { dotted, table := compatKey, name := item.1, value := .string item.2 }

theorem flatMap_fieldsOfPair (items : List (SimpleKey × StringLiteral)) :
    (items.map fun item => (({ first := item.1 }, .string item.2) : Pair)).flatMap
      (Toml.fieldsOfPair compatKey) = items.map (fieldOfItem false) := by
  rw [List.flatMap_map, List.map_eq_flatMap]
  rfl

theorem flatMap_fieldsOfRootPair (items : List (SimpleKey × StringLiteral)) :
    (items.map fun item =>
        (({ first := compatKey, others := [item.1] }, .string item.2) : Pair)).flatMap
      Toml.fieldsOfRootPair = items.map (fieldOfItem true) := by
  rw [List.flatMap_map, List.map_eq_flatMap]
  rfl

section Entries

variable {items : List (SimpleKey × StringLiteral)}
  (h : ∀ item ∈ items, item.1.WellFormed ∧ item.2.OnLine)
include h

theorem entries_tableText : entries (tableText items) =
    List.flatten <$> (items.map (fieldOfItem false)).mapM entryOfField := by
  rw [entries_eq (read?_tableText h), ← flatMap_fieldsOfPair]
  simp [Document.fields, Toml.fieldsOfTable]

theorem entries_inlineText (hne : items ≠ []) : entries (inlineText items) =
    List.flatten <$> (items.map (fieldOfItem false)).mapM entryOfField := by
  rw [entries_eq (read?_inlineText h hne), ← flatMap_fieldsOfPair]
  simp [Document.fields, Toml.fieldsOfRootPair]

theorem entries_dottedText : entries (dottedText items) =
    List.flatten <$> (items.map (fieldOfItem true)).mapM entryOfField := by
  rw [entries_eq (read?_dottedText h), ← flatMap_fieldsOfRootPair]
  simp [Document.fields]

end Entries

/-! ### One item -/

section Item

variable {item : SimpleKey × StringLiteral} {name specifier : Text}

theorem looks_compatKey : compatKey.looks = [compatTable] :=
  SimpleKey.looks_bare isBare_compatTable

theorem entryOfField_table (hname : item.1.name? = some name) :
    entryOfField (fieldOfItem false item) = entryOfValue name (.string item.2) := by
  have hkey : keyName item.1 = .ok name := keyName_eq_ok_iff.mpr hname
  rw [fieldOfItem, entryOfField, if_pos looks_compatKey]
  simp [entryOfPair, hkey]
  rfl

theorem entryOfField_dotted_of_plain (hkey : item.1.WellFormed)
    (hname : item.1.name? = some name) (hplain : item.1.Plain) :
    entryOfField (fieldOfItem true item) = entryOfField (fieldOfItem false item) := by
  rw [entryOfField_table hname, fieldOfItem, entryOfField, if_pos looks_compatKey,
    (SimpleKey.looks_eq_iff hkey hname).mpr hplain]
  rfl

/-- The entry that an item is, if nothing is at fault. -/
def entryOfItem (item : SimpleKey × StringLiteral) : CompatEntry :=
  ⟨item.1.name?.getD [], item.2.value?.getD []⟩

/-- The entry that one sees in an item, if one sees a single name. -/
def seenEntries (item : SimpleKey × StringLiteral) : List CompatEntry :=
  match item.1.looks with
  | [name] => [⟨name, item.2.value?.getD []⟩]
  | _ => []

theorem entryOfField_table_eq_ok (hname : item.1.name? = some name)
    (hvalue : item.2.value? = some specifier) :
    entryOfField (fieldOfItem false item) = .ok [entryOfItem item] := by
  rw [entryOfField_table hname, entryOfValue_eq_ok_iff]
  exact ⟨specifier, hvalue, by rw [entryOfItem, hname, hvalue]; rfl⟩

theorem entryOfField_dotted_eq_ok (hvalue : item.2.value? = some specifier) :
    entryOfField (fieldOfItem true item) = .ok (seenEntries item) := by
  rw [fieldOfItem, entryOfField, if_pos looks_compatKey, if_pos rfl, seenEntries, hvalue]
  dsimp only
  rcases item.1.looks with _ | ⟨name, _ | ⟨next, more⟩⟩
  · rfl
  · exact entryOfValue_eq_ok_iff.mpr ⟨specifier, hvalue, rfl⟩
  · rfl

theorem length_seenEntries_le : (seenEntries item).length ≤ 1 := by
  unfold seenEntries
  split <;> simp

/-- One sees the entry that the item is only if the key is plain. -/
theorem plain_of_seenEntries (hkey : item.1.WellFormed) (hname : item.1.name? = some name)
    (h : seenEntries item = [entryOfItem item]) : item.1.Plain := by
  refine (SimpleKey.looks_eq_iff hkey hname).mp ?_
  unfold seenEntries at h
  split at h
  · next seen hlooks =>
    have hseen := congrArg CompatEntry.name (List.cons.inj h).1
    rw [hlooks, show seen = name by simpa [entryOfItem, hname] using hseen]
  · exact absurd h (by simp)

end Item

/-! ### All items -/

section FlatMap

variable {α β : Type} {g : α → List β} {k : α → β} {as : List α}

theorem length_flatMap_le (h : ∀ a ∈ as, (g a).length ≤ 1) :
    (as.flatMap g).length ≤ as.length := by
  induction as with
  | nil => exact le_rfl
  | cons a as ih =>
    obtain ⟨ha, has⟩ := List.forall_mem_cons.mp h
    rw [List.flatMap_cons, List.length_append, List.length_cons]
    have hle := ih has
    omega

/-- Lists with one element at most have enough elements together only if each of them has one. -/
theorem eq_singleton_of_flatMap_eq_map (hlength : ∀ a ∈ as, (g a).length ≤ 1)
    (h : as.flatMap g = as.map k) : ∀ a ∈ as, g a = [k a] := by
  induction as with
  | nil => simp
  | cons a as ih =>
    obtain ⟨ha, has⟩ := List.forall_mem_cons.mp hlength
    rw [List.flatMap_cons, List.map_cons] at h
    cases hg : g a with
    | nil =>
      -- Without an element here, the others would have to make up for it.
      have hle := length_flatMap_le has
      rw [hg, List.nil_append] at h
      rw [h, List.length_cons, List.length_map] at hle
      omega
    | cons b bs =>
      obtain rfl : bs = [] := by
        rw [hg] at ha
        simpa using ha
      rw [hg, List.singleton_append] at h
      obtain ⟨rfl, hrest⟩ := List.cons.inj h
      exact List.forall_mem_cons.mpr ⟨hg, ih has hrest⟩

end FlatMap

section Items

variable {items : List (SimpleKey × StringLiteral)}
  (h : ∀ item ∈ items, item.1.WellFormed ∧ item.2.OnLine)
include h

theorem entries_dottedText_of_plain (hnames : ∀ item ∈ items, item.1.name?.isSome)
    (hplain : ∀ item ∈ items, item.1.Plain) :
    entries (dottedText items) = entries (tableText items) := by
  have hsame : ∀ item ∈ items, entryOfField (fieldOfItem false item) =
      List.flatten <$> [fieldOfItem true item].mapM entryOfField := fun item hitem => by
    obtain ⟨name, hname⟩ := Option.isSome_iff_exists.mp (hnames item hitem)
    rw [flatten_mapM_singleton,
      entryOfField_dotted_of_plain (h item hitem).1 hname (hplain item hitem)]
  rw [entries_dottedText h, entries_tableText h, List.map_eq_flatMap, ← flatten_mapM_flatMap hsame,
    List.mapM_map]
  rfl

theorem entries_dottedText_eq_ok (hvalues : ∀ item ∈ items, item.2.value?.isSome) :
    entries (dottedText items) = .ok (items.flatMap seenEntries) := by
  rw [entries_dottedText h, List.mapM_map]
  refine flatten_mapM_eq_ok fun item hitem => ?_
  obtain ⟨specifier, hvalue⟩ := Option.isSome_iff_exists.mp (hvalues item hitem)
  exact entryOfField_dotted_eq_ok hvalue

theorem entries_tableText_eq_ok (hnames : ∀ item ∈ items, item.1.name?.isSome)
    (hvalues : ∀ item ∈ items, item.2.value?.isSome) :
    entries (tableText items) = .ok (items.map entryOfItem) := by
  rw [entries_tableText h, List.mapM_map, List.map_eq_flatMap]
  refine flatten_mapM_eq_ok fun item hitem => ?_
  obtain ⟨name, hname⟩ := Option.isSome_iff_exists.mp (hnames item hitem)
  obtain ⟨specifier, hvalue⟩ := Option.isSome_iff_exists.mp (hvalues item hitem)
  exact entryOfField_table_eq_ok hname hvalue

end Items

end Project

open Project in
/-- **When the spellings agree.** Below a header and between braces, the same items have the same
entries, or the same fault. With points in the keys they do, too, if all keys are plain. If no
string is at fault, then below a header the entries are the items, in order, and with points in the
keys they are not unless all keys are plain. -/
theorem spellings_agree_iff_plain {items : List (Toml.SimpleKey × Toml.StringLiteral)}
    (hne : items ≠ []) (h : ∀ item ∈ items, item.1.WellFormed ∧ item.2.OnLine)
    (hnames : ∀ item ∈ items, item.1.name?.isSome) :
    entries (inlineText items) = entries (tableText items) ∧
    ((∀ item ∈ items, item.1.Plain) →
      entries (dottedText items) = entries (tableText items)) ∧
    ((∀ item ∈ items, item.2.value?.isSome) →
      (∃ es, entries (tableText items) = .ok es ∧
        es.map (fun e => (some e.name, some e.specifier)) =
          items.map fun item => (item.1.name?, item.2.value?)) ∧
      (entries (dottedText items) = entries (tableText items) →
        ∀ item ∈ items, item.1.Plain)) := by
  refine ⟨by rw [entries_inlineText h hne, entries_tableText h],
    entries_dottedText_of_plain h hnames, fun hvalues => ?_⟩
  have htable := entries_tableText_eq_ok h hnames hvalues
  refine ⟨⟨_, htable, ?_⟩, fun hsame item hitem => ?_⟩
  · rw [List.map_map]
    refine List.map_congr_left fun item hitem => ?_
    obtain ⟨name, hname⟩ := Option.isSome_iff_exists.mp (hnames item hitem)
    obtain ⟨specifier, hvalue⟩ := Option.isSome_iff_exists.mp (hvalues item hitem)
    simp [entryOfItem, hname, hvalue]
  · rw [htable, entries_dottedText_eq_ok h hvalues] at hsame
    obtain ⟨name, hname⟩ := Option.isSome_iff_exists.mp (hnames item hitem)
    exact plain_of_seenEntries (h item hitem).1 hname (eq_singleton_of_flatMap_eq_map
      (fun item _ => length_seenEntries_le) (Except.ok.inj hsame) item hitem)

open Project in
/-- A name with blanks around its string, and a name of two words. -/
theorem spellings_agree_iff_plain_two :
    let items : List (Toml.SimpleKey × Toml.StringLiteral) :=
      [(.bare "julia".toList, ⟨.double, false, " 1.6 ".toList⟩),
        (.quoted ⟨.single, false, "a b".toList⟩, ⟨.single, false, "1".toList⟩)]
    entries (inlineText items) = entries (tableText items) ∧
      entries (dottedText items) = entries (tableText items) :=
  let agree := spellings_agree_iff_plain (List.cons_ne_nil _ _) (by decide) (by decide)
  ⟨agree.1, agree.2.1 (by decide)⟩

open Project in
/-- **Behind a point an escape is not replaced**, so that there is no entry for Julia. -/
theorem exists_spellings_differ :
    ∃ items : List (Toml.SimpleKey × Toml.StringLiteral), items ≠ [] ∧
      (∀ item ∈ items, item.1.WellFormed ∧ item.2.OnLine) ∧
      (∀ item ∈ items, item.1.name?.isSome) ∧
      entries (dottedText items) ≠ entries (tableText items) :=
  ⟨[(.quoted ⟨.double, false, "ju\\u006cia".toList⟩, ⟨.double, false, "1.6".toList⟩)],
    List.cons_ne_nil _ _, by decide, by decide, by decide +kernel⟩

end JuliaReleases
