import JuliaReleases.Catalog.Download
import JuliaReleases.Catalog.Format
import JuliaReleases.Proofs.Resolution.Answer
import JuliaReleases.Proofs.Version.Canonical

/-!
# Looking up what was resolved

Resolution reads the tags of a catalog and answers with the written form of a version, and the
record of this version is then looked up under the answer. Since a version has one written form, the
answer is what remains of a tag without its blanks and its `v`
(`JuliaReleases.Catalog.exists_tag_of_resolve`). But the catalog keeps the tags as they are, so the
answer is found if and only if it is a tag itself.

An address to download from needs one more thing. An answer whose suffix ends in `nightly` is taken
for the name of a nightly build, which has no record, and not for one of a branch
(`JuliaReleases.Nightly.branch?_write`), so it is unknown even if the catalog has it
(`JuliaReleases.Catalog.address_eq_unknownVersion_iff`).
-/

namespace JuliaReleases

/-! ### Written versions are no branches -/

namespace Version

theorem numbersText_eq (v : Version) : v.numbersText = Decimal.write v.major ++
    '.' :: (Decimal.write v.minor ++ '.' :: Decimal.write v.patch) := by
  simp [numbersText, dotted, List.intercalate_cons_cons]

theorem exists_write_eq_append (v : Version) : ∃ suffix, v.write = v.numbersText ++ suffix :=
  ⟨_, List.append_assoc _ _ _⟩

end Version

namespace Nightly

/-- **A written version does not name a branch**: it has one number too many. -/
theorem branch?_write (v : Version) : branch? v.write = none := by
  obtain ⟨suffix, hwrite⟩ := v.exists_write_eq_append
  have hhyphen : ∀ c ∈ v.numbersText, c ≠ '-' := fun c hc => by
    rintro rfl
    exact absurd (Version.isDigit_of_mem_numbersText hc) (by decide)
  obtain ⟨rest, hrest⟩ : ∃ rest, (Text.cut '-' v.write).1 = v.numbersText ++ rest := by
    rw [Text.cut_fst, hwrite]
    exact ⟨_, List.takeWhile_append_of_pos (by simpa using hhyphen)⟩
  have hpoint : '.' ∉ Decimal.write v.major := fun h =>
    absurd (Decimal.isDigit_of_mem_write h) (by decide)
  -- What would be the minor number of the branch has a point in it.
  have hcut : Text.cut '.' (Text.cut '-' v.write).1 = (Decimal.write v.major,
      some (Decimal.write v.minor ++ '.' :: (Decimal.write v.patch ++ rest))) := by
    rw [hrest, Version.numbersText_eq, ← Text.cut_append_cons hpoint]
    simp
  have hminor : Decimal.read? (Decimal.write v.minor ++ '.' :: (Decimal.write v.patch ++ rest)) =
      none := by
    simp [Decimal.read?, Decimal.isNumeral]
  unfold branch?
  split
  · next branch rest' heq =>
    split
    · rw [heq] at hcut
      rw [hcut]
      simp [hminor]
    · rfl
  · rfl

theorem write_ne_word (v : Version) : v.write ≠ word := by
  obtain ⟨suffix, hwrite⟩ := v.exists_write_eq_append
  intro hword
  have hpoint : '.' ∈ word := by
    rw [← hword, hwrite, Version.numbersText_eq]
    simp
  exact absurd hpoint (by decide)

end Nightly

/-- The address of a written version is the one of its binary. -/
theorem downloadAddress_write (binary : Option Binary) (v : Version) (platform : Platform) :
    downloadAddress binary v.write platform =
      binary.elim (.error (.unknownVersion v.write)) fun binary => .ok binary.url := by
  simp only [downloadAddress, Nightly.branch?_write, if_neg (Nightly.write_ne_word v)]
  cases binary <;> rfl

namespace Catalog

variable {settings : Settings} {c : Catalog} {tag request answer : Text}
  {policy : PrereleasePolicy} {compat : Option CompatRange}

/-- A tag has a record if and only if it is in the catalog. -/
theorem isSome_get?_iff : (c.get? tag).isSome = true ↔ tag ∈ c.versions := by
  simp [get?, versions]

/-- The address to download a version from, looked up in the catalog. -/
def address (c : Catalog) (version : Text) (platform : Platform) : Except CatalogError Text := do
  let binary ← c.binary? version platform
  downloadAddress binary version platform

/-- **Where a written version is unknown**: it is no tag, or it is taken for a nightly build. -/
theorem address_eq_unknownVersion_iff (v : Version) (platform : Platform) :
    c.address v.write platform = .error (.unknownVersion v.write) ↔
      v.write ∉ c.versions ∨ Nightly.IsName v.write := by
  rw [← isSome_get?_iff, address, binary?]
  by_cases hnightly : Nightly.IsName v.write
  · rw [if_pos hnightly]
    exact iff_of_true (downloadAddress_write none v platform) (.inr hnightly)
  · rw [if_neg hnightly, or_iff_left hnightly]
    cases c.get? v.write with
    | none => exact iff_of_true rfl (by simp)
    | some release =>
      refine iff_of_false (fun h => ?_) (by simp)
      dsimp only at h
      cases hfind : release.files.find? (IsFor platform) with
      | none => rw [hfind] at h; exact absurd (Except.error.inj h) (by simp)
      | some binary =>
        rw [hfind] at h
        have hfound := downloadAddress_write (some binary) v platform
        exact absurd (hfound.symm.trans h) (by simp)

/-- **What is resolved is a tag** without its blanks and its `v`. -/
theorem exists_tag_of_resolve (hexact : ∀ version, Request.read request ≠ .exact version)
    (hnightly : ∀ name, Request.read request ≠ .nightly name)
    (h : resolve settings c.versions request policy compat = .ok answer) :
    ∃ tag ∈ c.versions, ∃ v, Tag.version? tag = some v ∧ answer = v.write ∧
      v.write = Tag.stripPrefix (Text.trim tag) := by
  obtain ⟨v, hv, rfl⟩ := exists_candidate_of_resolve_eq_ok hexact hnightly h
  obtain ⟨tag, htag, hversion⟩ := List.mem_filterMap.mp hv.1
  exact ⟨tag, htag, v, hversion, rfl, Tag.write_of_version? hversion⟩

end Catalog

open Catalog in
/-- **When a resolved version is found again.** The answer to a request that selects a version is a
tag of the catalog without blanks and `v`. The catalog has a record for the answer if and only if it
is a tag as it is, which is so if every tag that names a version is written without blanks and `v`.
The address to download from is unknown if and only if there is no record, or the answer ends like
the name of a nightly build. -/
theorem resolved_version_found_iff {settings : Settings} {c : Catalog} {request answer : Text}
    {policy : PrereleasePolicy} {compat : Option CompatRange}
    (hexact : ∀ version, Request.read request ≠ .exact version)
    (hnightly : ∀ name, Request.read request ≠ .nightly name)
    (h : resolve settings c.versions request policy compat = .ok answer) :
    (∃ tag ∈ c.versions, Tag.stripPrefix (Text.trim tag) = answer) ∧
      ((c.get? answer).isSome = true ↔ answer ∈ c.versions) ∧
      ((∀ tag ∈ c.versions, (Tag.version? tag).isSome = true →
        Tag.stripPrefix (Text.trim tag) = tag) → (c.get? answer).isSome = true) ∧
      ∀ platform, c.address answer platform = .error (.unknownVersion answer) ↔
        answer ∉ c.versions ∨ Nightly.IsName answer := by
  obtain ⟨tag, htag, v, hversion, rfl, hwrite⟩ := exists_tag_of_resolve hexact hnightly h
  refine ⟨⟨tag, htag, hwrite.symm⟩, isSome_get?_iff, fun hplain => ?_,
    address_eq_unknownVersion_iff v⟩
  rw [isSome_get?_iff, hwrite, hplain tag htag (Option.isSome_of_eq_some hversion)]
  exact htag

open Catalog in
/-- A catalog of two releases, of which the older one has a `v` in front of its version. -/
theorem resolved_version_found_iff_pre :
    ∃ c, Catalog.read "\x7b\"1.6.7\":\x7b\x7d,\"v1.5.4\":\x7b\x7d\x7d".toList = .ok c ∧
      resolve {} c.versions "pre".toList .named none = .ok "1.6.7".toList ∧
      (∃ tag ∈ c.versions, Tag.stripPrefix (Text.trim tag) = "1.6.7".toList) ∧
      ((c.get? "1.6.7".toList).isSome = true ↔ "1.6.7".toList ∈ c.versions) ∧
      ∀ platform, c.address "1.6.7".toList platform = .error (.unknownVersion "1.6.7".toList) ↔
        "1.6.7".toList ∉ c.versions ∨ Nightly.IsName "1.6.7".toList := by
  have hselects : (∀ version, Request.read "pre".toList ≠ .exact version) ∧
      ∀ name, Request.read "pre".toList ≠ .nightly name := by
    rw [show Request.read "pre".toList = .pre from rfl]
    simp
  have hfound := @resolved_version_found_iff {} ⟨[("1.6.7".toList, {}), ("v1.5.4".toList, {})]⟩
    "pre".toList "1.6.7".toList .named none hselects.1 hselects.2 rfl
  exact ⟨_, rfl, rfl, hfound.1, hfound.2.1, hfound.2.2.2⟩

open Catalog in
/-- The only release of a catalog has a `v` in front of its version. It is the answer to a request,
but it is not found under the answer. -/
theorem exists_resolved_version_not_found :
    ∃ c, Catalog.read "\x7b\"v1.6.7\":\x7b\x7d\x7d".toList = .ok c ∧
      resolve {} c.versions "1.6".toList .named none = .ok "1.6.7".toList ∧
      c.get? "1.6.7".toList = none :=
  ⟨⟨[("v1.6.7".toList, {})]⟩, rfl, rfl, rfl⟩

end JuliaReleases
