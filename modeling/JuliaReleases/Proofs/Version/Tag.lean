import Mathlib.Data.List.Dedup
import Mathlib.Data.Set.Basic
import Mathlib.Tactic.SplitIfs
import JuliaReleases.Proofs.Version.Canonical
import JuliaReleases.Request

/-!
# What a list of tags lists

A tag that names a version is the written form of the version, perhaps behind a `v`, between blanks.
That is all there is to it (`JuliaReleases.Tag.version?_eq_some_iff`), so a list of tags lists
written forms, `JuliaReleases.Tag.releases`, and everything else about it is a matter of spelling:
the order of the tags, tags that stand there twice, and tags that name nothing.

`JuliaReleases.Tag.Relists` says this as a relation between lists of tags, change by change. The
changes are enough: two lists are related if and only if they list the same
(`JuliaReleases.Tag.relists_iff`). The reason is that each list can be changed into the written
forms of its versions, in order (`JuliaReleases.Tag.relists_map_write`), and of two such lists with
the same members neither order nor repetition counts.
-/

namespace JuliaReleases

namespace Tag

/-! ### Spellings -/

/-- **The ways to write a text as a tag**: with a `v` in front or without, between blanks. -/
inductive Spells (text : Text) : Text → Prop
  /-- The text as it is. -/
  | plain {before after : Text} (hbefore : ∀ c ∈ before, isBlank c = true)
      (hafter : ∀ c ∈ after, isBlank c = true) : Spells text (before ++ text ++ after)
  /-- The text behind a `v`. -/
  | prefixed {before after : Text} (hbefore : ∀ c ∈ before, isBlank c = true)
      (hafter : ∀ c ∈ after, isBlank c = true) : Spells text (before ++ 'v' :: text ++ after)

theorem Spells.self (text : Text) : Spells text text := by
  simpa using @plain text [] [] (by simp) (by simp)

theorem stripPrefix_write (v : Version) : stripPrefix v.write = v.write := by
  obtain ⟨c, rest, hwrite, hc⟩ := v.exists_write_eq_cons
  have hne : c ≠ 'v' := by
    rintro rfl
    exact absurd hc (by decide)
  rw [hwrite, stripPrefix_cons hne]

/-- Every spelling of a written version comes down to the version. -/
theorem Spells.stripPrefix_trim {v : Version} {tag : Text} (h : Spells v.write tag) :
    stripPrefix (Text.trim tag) = v.write := by
  cases h with
  | plain hbefore hafter =>
    rw [Text.trim_between_blanks hbefore hafter, Text.trim_of_isWord v.isWord_write,
      stripPrefix_write]
  | prefixed hbefore hafter =>
    have hword : Text.IsWord ('v' :: v.write) :=
      ⟨List.cons_ne_nil _ _, List.forall_mem_cons.mpr ⟨rfl, v.isWord_write.2⟩⟩
    rw [Text.trim_between_blanks hbefore hafter, Text.trim_of_isWord hword]
    rfl

/-- A tag spells what it comes down to. -/
theorem spells_stripPrefix_trim (tag : Text) : Spells (stripPrefix (Text.trim tag)) tag := by
  obtain ⟨before, after, hbefore, hafter, htag⟩ := Text.exists_blanks_trim tag
  generalize Text.trim tag = text at htag
  subst htag
  unfold stripPrefix
  split
  · exact .prefixed hbefore hafter
  · exact .plain hbefore hafter

/-- **The tags that name a version** are the spellings of its written form. -/
theorem version?_eq_some_iff {tag : Text} {v : Version} :
    version? tag = some v ↔ Version.read? v.write = some v ∧ Spells v.write tag := by
  constructor
  · intro h
    refine ⟨Version.read?_write_of_read? h, ?_⟩
    rw [write_of_version? h]
    exact spells_stripPrefix_trim tag
  · rintro ⟨hread, hspells⟩
    rw [version?, hspells.stripPrefix_trim, hread]

/-! ### Lists of tags -/

variable {tags tags' : List Text} {text : Text} {v : Version}

/-- **What some tags list**: what remains of those that name a version, without blanks and `v`. -/
def releases (tags : List Text) : Set Text :=
  {text | ∃ tag ∈ tags, (version? tag).isSome = true ∧ stripPrefix (Text.trim tag) = text}

theorem mem_releases_cons_iff {tag : Text} : text ∈ releases (tag :: tags) ↔
    (version? tag).isSome = true ∧ stripPrefix (Text.trim tag) = text ∨ text ∈ releases tags := by
  simp only [releases, Set.mem_ofPred_eq, List.mem_cons, exists_eq_or_imp]

/-- What is listed are the written forms of the versions that the tags name. -/
theorem mem_releases_iff : text ∈ releases tags ↔ text ∈ (versions tags).map Version.write := by
  simp only [releases, Set.mem_ofPred_eq, versions, List.mem_map, List.mem_filterMap,
    Option.isSome_iff_exists]
  constructor
  · rintro ⟨tag, htag, ⟨v, hv⟩, rfl⟩
    exact ⟨v, ⟨tag, htag, hv⟩, write_of_version? hv⟩
  · rintro ⟨v, ⟨tag, htag, hv⟩, rfl⟩
    exact ⟨tag, htag, ⟨v, hv⟩, (write_of_version? hv).symm⟩

theorem read?_write_of_mem_versions (h : v ∈ versions tags) : Version.read? v.write = some v := by
  obtain ⟨tag, -, htag⟩ := List.mem_filterMap.mp h
  exact Version.read?_write_of_read? htag

/-- A version is known by its written form. -/
theorem mem_versions_iff :
    v ∈ versions tags ↔ Version.read? v.write = some v ∧ v.write ∈ releases tags := by
  rw [mem_releases_iff]
  constructor
  · exact fun h => ⟨read?_write_of_mem_versions h, List.mem_map_of_mem h⟩
  · rintro ⟨hread, hmem⟩
    obtain ⟨w, hw, hwrite⟩ := List.mem_map.mp hmem
    have hsome : some w = some v := by rw [← read?_write_of_mem_versions hw, hwrite, hread]
    exact Option.some.inj hsome ▸ hw

/-- **Changes to a list of tags that do not count.** -/
inductive Relists : List Text → List Text → Prop
  /-- The order of the tags. -/
  | reorder {tags tags' : List Text} : tags.Perm tags' → Relists tags tags'
  /-- A tag that is there already. -/
  | duplicate {tag : Text} {tags : List Text} : tag ∈ tags → Relists tags (tag :: tags)
  /-- Another way to write the same version. -/
  | respell {text tag tag' : Text} {tags : List Text} : (Version.read? text).isSome = true →
      Spells text tag → Spells text tag' → Relists (tag :: tags) (tag' :: tags)
  /-- A tag that names no version. -/
  | skip {tag : Text} {tags : List Text} : version? tag = none → Relists tags (tag :: tags)
  /-- A change further behind. -/
  | cons {tag : Text} {tags tags' : List Text} : Relists tags tags' →
      Relists (tag :: tags) (tag :: tags')
  | symm {tags tags' : List Text} : Relists tags tags' → Relists tags' tags
  | trans {tags tags' tags'' : List Text} : Relists tags tags' → Relists tags' tags'' →
      Relists tags tags''

theorem Relists.releases_eq (h : Relists tags tags') : releases tags = releases tags' := by
  induction h with
  | reorder h =>
    ext text
    simp only [releases, Set.mem_ofPred_eq, h.mem_iff]
  | @duplicate tag tags h =>
    ext text
    rw [mem_releases_cons_iff]
    exact ⟨.inr, fun hor => hor.elim (fun hnew => ⟨tag, h, hnew⟩) id⟩
  | @respell text tag tag' tags hread htag htag' =>
    obtain ⟨v, hv⟩ := Option.isSome_iff_exists.mp hread
    obtain rfl := Version.write_of_read? hv
    ext text
    rw [mem_releases_cons_iff, mem_releases_cons_iff, htag.stripPrefix_trim,
      htag'.stripPrefix_trim, version?_eq_some_iff.mpr ⟨hv, htag⟩,
      version?_eq_some_iff.mpr ⟨hv, htag'⟩]
  | @skip tag tags h =>
    ext text
    rw [mem_releases_cons_iff, h]
    simp
  | cons _ ih =>
    ext text
    rw [mem_releases_cons_iff, mem_releases_cons_iff, ih]
  | symm _ ih => exact ih.symm
  | trans _ _ ih ih' => exact ih.trans ih'

/-- Every list can be changed into the written forms of its versions. -/
theorem relists_map_write (tags : List Text) :
    Relists tags ((versions tags).map Version.write) := by
  induction tags with
  | nil => exact .reorder .nil
  | cons tag tags ih =>
    cases htag : version? tag with
    | none =>
      rw [versions, List.filterMap_cons_none htag]
      exact (Relists.skip htag).symm.trans ih
    | some v =>
      obtain ⟨hread, hspells⟩ := version?_eq_some_iff.mp htag
      rw [versions, List.filterMap_cons_some htag, List.map_cons]
      exact (Relists.respell (Option.isSome_of_eq_some hread) hspells (.self _)).trans (.cons ih)

theorem relists_dedup (tags : List Text) : Relists tags tags.dedup := by
  induction tags with
  | nil => exact .reorder .nil
  | cons tag tags ih =>
    by_cases htag : tag ∈ tags
    · rw [List.dedup_cons_of_mem htag]
      exact (Relists.duplicate htag).symm.trans ih
    · rw [List.dedup_cons_of_notMem htag]
      exact .cons ih

/-- Neither the order of the tags nor their number counts. -/
theorem relists_of_mem_iff (h : ∀ tag, tag ∈ tags ↔ tag ∈ tags') : Relists tags tags' := by
  have hperm : tags.dedup.Perm tags'.dedup :=
    (List.perm_ext_iff_of_nodup tags.nodup_dedup tags'.nodup_dedup).mpr (by simpa using h)
  exact ((relists_dedup tags).trans (.reorder hperm)).trans (relists_dedup tags').symm

/-- **Two lists of tags list the same if and only if one can be changed into the other.** -/
theorem relists_iff : Relists tags tags' ↔ releases tags = releases tags' := by
  refine ⟨Relists.releases_eq, fun h => ?_⟩
  have hmem : ∀ text, text ∈ (versions tags).map Version.write ↔
      text ∈ (versions tags').map Version.write := by
    intro text
    rw [← mem_releases_iff, ← mem_releases_iff, h]
  exact ((relists_map_write tags).trans (relists_of_mem_iff hmem)).trans
    (relists_map_write tags').symm

end Tag

end JuliaReleases
