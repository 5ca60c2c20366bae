import Mathlib.Data.List.Induction
import JuliaReleases.Proofs.Catalog.Document

/-!
# Catalog documents round-trip

A catalog is built by adding records one by one, and a tag that comes again keeps its place and
takes the later record. So a catalog lists the tags of its document once each, in the order of their
first appearance, with the records of their last appearance
(`JuliaReleases.Catalog.versions_ofEntries`, `JuliaReleases.Catalog.get?_ofEntries`), and the
catalog of entries without repetition is made of just these
(`JuliaReleases.Catalog.ofEntries_of_nodup`). Together with the reader's law that gives the round
trip (`JuliaReleases.catalog_round_trip`): what was loaded can be printed in either layout and
loaded again.
-/

namespace JuliaReleases

namespace Catalog

variable {c : Catalog} {tag : Text} {release : Release} {entries : List (Text × Release)}

/-! ### Adding a record -/

theorem insert_of_mem (h : tag ∈ c.versions) : c.insert tag release =
    ⟨c.entries.map fun entry => if entry.1 = tag then (tag, release) else entry⟩ :=
  if_pos (List.contains_iff_mem.mpr h)

theorem insert_of_notMem (h : tag ∉ c.versions) :
    c.insert tag release = ⟨c.entries ++ [(tag, release)]⟩ :=
  if_neg fun hmem => h (List.contains_iff_mem.mp hmem)

/-- A tag keeps its place, and a new one comes last. -/
theorem versions_insert (c : Catalog) (tag : Text) (release : Release) :
    (c.insert tag release).versions =
      if tag ∈ c.versions then c.versions else c.versions ++ [tag] := by
  split_ifs with hmem
  · rw [insert_of_mem hmem, versions, versions, List.map_map]
    refine List.map_congr_left fun entry _ => ?_
    by_cases hentry : entry.1 = tag <;> simp [hentry]
  · rw [insert_of_notMem hmem, versions, List.map_append]
    rfl

theorem lookup_self_cons (key : Text) (release : Release) (entries : List (Text × Release)) :
    ((key, release) :: entries).lookup key = some release := by
  rw [List.lookup_cons, beq_self_eq_true]

theorem lookup_cons_of_ne {key : Text} (h : key ≠ tag) :
    ((tag, release) :: entries).lookup key = entries.lookup key := by
  rw [List.lookup_cons, beq_false_of_ne h]

/-- A record that takes the place of another one is found. -/
theorem lookup_replace_self (hmem : tag ∈ entries.map Prod.fst) :
    (entries.map fun entry => if entry.1 = tag then (tag, release) else entry).lookup tag =
      some release := by
  induction entries with
  | nil => exact absurd hmem (by simp)
  | cons entry entries ih =>
    by_cases hentry : entry.1 = tag
    · rw [List.map_cons, if_pos hentry, lookup_self_cons]
    · have hmem : tag ∈ entries.map Prod.fst :=
        (List.mem_cons.mp hmem).resolve_left fun heq => hentry heq.symm
      rw [List.map_cons, if_neg hentry, lookup_cons_of_ne (Ne.symm hentry), ih hmem]

theorem lookup_replace_of_ne {key : Text} (hne : key ≠ tag) :
    (entries.map fun entry => if entry.1 = tag then (tag, release) else entry).lookup key =
      entries.lookup key := by
  induction entries with
  | nil => rfl
  | cons entry entries ih =>
    by_cases hentry : entry.1 = tag
    · rw [List.map_cons, if_pos hentry, lookup_cons_of_ne hne, ih,
        lookup_cons_of_ne (hentry ▸ hne)]
    · rw [List.map_cons, if_neg hentry, List.lookup_cons, List.lookup_cons, ih]

/-- The tag has the record that was added. -/
theorem get?_insert_self (c : Catalog) (tag : Text) (release : Release) :
    (c.insert tag release).get? tag = some release := by
  by_cases hmem : tag ∈ c.versions
  · rw [insert_of_mem hmem]
    exact lookup_replace_self hmem
  · have hnone : c.entries.lookup tag = none := by
      refine List.lookup_eq_none_iff.mpr fun entry hentry => ?_
      simpa using fun heq : tag = entry.1 => hmem (heq ▸ List.mem_map_of_mem hentry)
    rw [insert_of_notMem hmem, get?, List.lookup_append, hnone, lookup_self_cons]
    rfl

/-- Every other tag has the record that it had. -/
theorem get?_insert_of_ne {key : Text} (hne : key ≠ tag) :
    (c.insert tag release).get? key = c.get? key := by
  by_cases hmem : tag ∈ c.versions
  · rw [insert_of_mem hmem]
    exact lookup_replace_of_ne hne
  · rw [insert_of_notMem hmem, get?, List.lookup_append, lookup_cons_of_ne hne]
    exact Option.or_none

/-! ### The catalog of some entries -/

theorem ofEntries_append (entries : List (Text × Release)) (entry : Text × Release) :
    ofEntries (entries ++ [entry]) = (ofEntries entries).insert entry.1 entry.2 := by
  rw [ofEntries, List.foldl_append]
  rfl

/-- **Tags are listed in the order of their first appearance.** -/
theorem versions_ofEntries (entries : List (Text × Release)) :
    (ofEntries entries).versions = (entries.map Prod.fst).eraseDups := by
  induction entries using List.reverseRecOn with
  | nil => rfl
  | append_singleton entries entry ih =>
    rw [ofEntries_append, versions_insert, ih, List.map_append, List.eraseDups_append]
    by_cases hmem : entry.1 ∈ entries.map Prod.fst
    · simp [List.mem_eraseDups, hmem, List.removeAll]
    · simp [List.mem_eraseDups, hmem, List.removeAll, List.eraseDups_cons]

theorem nodup_versions_ofEntries (entries : List (Text × Release)) :
    (ofEntries entries).versions.Nodup := by
  induction entries using List.reverseRecOn with
  | nil => exact List.nodup_nil
  | append_singleton entries entry ih =>
    rw [ofEntries_append, versions_insert]
    split_ifs with hmem
    · exact ih
    · refine List.nodup_append.mpr ⟨ih, by simp, fun tag htag last hlast heq => ?_⟩
      obtain rfl := List.mem_singleton.mp hlast
      exact hmem (heq ▸ htag)

/-- **A tag has the record of its last appearance.** -/
theorem get?_ofEntries (entries : List (Text × Release)) (tag : Text) :
    (ofEntries entries).get? tag = entries.reverse.lookup tag := by
  induction entries using List.reverseRecOn with
  | nil => rfl
  | append_singleton entries entry ih =>
    rw [ofEntries_append, List.reverse_append, List.reverse_singleton, List.singleton_append]
    by_cases htag : tag = entry.1
    · rw [htag, get?_insert_self, lookup_self_cons]
    · rw [get?_insert_of_ne htag, ih, lookup_cons_of_ne htag]

/-- **Entries without repetition are a catalog as they are.** -/
theorem ofEntries_of_nodup (h : (entries.map Prod.fst).Nodup) : ofEntries entries = ⟨entries⟩ := by
  induction entries using List.reverseRecOn with
  | nil => rfl
  | append_singleton entries entry ih =>
    rw [List.map_append, List.nodup_append] at h
    rw [ofEntries_append, ih h.1, insert_of_notMem]
    intro hmem
    exact h.2.2 _ hmem _ (List.mem_singleton_self _) rfl

/-- The records of a catalog are records of its document. -/
theorem mem_of_mem_ofEntries {entry : Text × Release}
    (h : entry ∈ (ofEntries entries).entries) : entry ∈ entries := by
  induction entries using List.reverseRecOn with
  | nil => exact h
  | append_singleton entries last ih =>
    rw [ofEntries_append] at h
    rw [List.mem_append, List.mem_singleton]
    by_cases hmem : last.1 ∈ (ofEntries entries).versions
    · rw [insert_of_mem hmem] at h
      obtain ⟨old, hold, heq⟩ := List.mem_map.mp h
      split_ifs at heq
      · exact .inr heq.symm
      · exact .inl (ih (heq ▸ hold))
    · rw [insert_of_notMem hmem, List.mem_append, List.mem_singleton] at h
      exact h.imp_left ih

/-! ### Printing what was loaded -/

/-- A loaded catalog is the one of the entries of its document. -/
theorem read_eq_ok_iff {text : Text} : Catalog.read text = .ok c ↔
    ∃ entries, Json.readDocument (Json.readEntries Release.read) text = .ok entries ∧
      ofEntries entries = c :=
  map_eq_ok_iff

theorem sizesFit_of_read {text : Text} (h : Catalog.read text = .ok c) : c.SizesFit := by
  obtain ⟨entries, hentries, rfl⟩ := read_eq_ok_iff.mp h
  exact fun entry hentry => sizesFit_of_readDocument hentries entry (mem_of_mem_ofEntries hentry)

/-- **A loaded catalog is read back**, in whatever layout it is printed. -/
theorem read_print_of_read {text : Text} (h : Catalog.read text = .ok c) (l : Json.Layout)
    (depth : Nat) : Catalog.read (c.toJson.print l depth) = .ok c := by
  have hnodup : (c.entries.map Prod.fst).Nodup := by
    obtain ⟨entries, -, rfl⟩ := read_eq_ok_iff.mp h
    exact nodup_versions_ofEntries entries
  rw [read_print (sizesFit_of_read h), ofEntries_of_nodup hnodup]

end Catalog

/-- **Catalog documents round-trip.** A catalog that was loaded is printed as a document, in one
line or over several, that is loaded as the same catalog. It lists every tag of its document once,
in the order of their first appearance, and the record of a tag is the one of its last
appearance. -/
theorem catalog_round_trip {text : Text} {c : Catalog} (h : Catalog.read text = .ok c) :
    Catalog.read c.write = .ok c ∧
      (∀ depth, Catalog.read (c.toJson.indented depth) = .ok c) ∧
      c.versions.Nodup ∧
      ∃ entries, Json.readDocument (Json.readEntries Release.read) text = .ok entries ∧
        c.versions = (entries.map Prod.fst).eraseDups ∧
        ∀ tag, c.get? tag = entries.reverse.lookup tag := by
  have hcompact := Catalog.read_print_of_read h .compact 0
  rw [Json.Value.print_compact] at hcompact
  refine ⟨hcompact, fun depth => ?_, ?_⟩
  · rw [← Json.Value.print_indented]
    exact Catalog.read_print_of_read h .indented depth
  · obtain ⟨entries, hentries, rfl⟩ := Catalog.read_eq_ok_iff.mp h
    exact ⟨Catalog.nodup_versions_ofEntries entries, entries, hentries,
      Catalog.versions_ofEntries entries, Catalog.get?_ofEntries entries⟩

/-- A tag that comes twice, with a record that is an array at first; its last record has a mark, a
control character and the greatest size in it. -/
theorem catalog_round_trip_repeated :
    let text := "\x7b\"a\": [true], \"b\": \x7b\x7d, \"a\": \x7b\"files\": [\x7b
      \"os\": \"\\\"\\u0001\", \"arch\": \"é\", \"url\": \"\", \"sha256\": \"\",
      \"size\": 18446744073709551615\x7d]\x7d\x7d".toList
    let binary : Binary :=
      { os := ['"', '\x01'], arch := ['é'], url := [], sha256 := [], size := some maxNumber }
    let c : Catalog := ⟨[("a".toList, { files := [binary] }), ("b".toList, {})]⟩
    Catalog.read text = .ok c ∧ Catalog.read c.write = .ok c ∧ c.versions.Nodup := by
  intro text binary c
  have hread : Catalog.read text = .ok c := by decide +kernel
  exact ⟨hread, (catalog_round_trip hread).1, (catalog_round_trip hread).2.2.1⟩

end JuliaReleases
