import JuliaReleases.Proofs.Catalog.Lookup
import JuliaReleases.Proofs.Text.Occurrence
import JuliaReleases.Proofs.Request

/-!
# Listed versions that are taken for nightly builds

A request that names a version in full is answered with this version, although its name may end like
that of a nightly build: `1.6.0-nightly` is a prerelease of `1.6.0`. The address to download from
agrees and is the one of the binary (`JuliaReleases.downloadAddress_write`). But the lookup in the
catalog goes by the end of the name alone, and has no binary for what ends in `nightly`.

`JuliaReleases.listed_version_found_iff` says which versions this concerns: those whose last
identifier ends in that word (`JuliaReleases.Nightly.isName_write_iff`), hence no full release
without build metadata. For every other version that the catalog lists with a binary for the
platform, the lookup gives the first one, `JuliaReleases.Catalog.IsFirstFor`.
-/

namespace JuliaReleases

/-! ### Versions that end like a nightly build -/

namespace Version

/-- The identifier that a version ends in, if there is anything behind its numbers. -/
def lastIdentifier? (v : Version) : Option Text :=
  (v.pre.map (·.text) ++ v.build.map (·.text)).getLast?

/-- Whether the last identifier of a version ends in the word for nightly builds. -/
def EndsInNightly (v : Version) : Prop :=
  ∃ text ∈ v.lastIdentifier?, Nightly.word <:+ text

theorem endsInNightly_iff {v : Version} {text : Text} (h : v.lastIdentifier? = some text) :
    v.EndsInNightly ↔ Nightly.word <:+ text := by
  simp [EndsInNightly, h]

end Version

namespace Nightly

/-- Digits are no part of the word. -/
theorem not_isName_numbersText (v : Version) : ¬ IsName v.numbersText := by
  have hpoint : '.' ∉ word := by decide
  rw [IsName, Version.numbersText_eq, Text.suffix_append_cons_iff hpoint,
    Text.suffix_append_cons_iff hpoint]
  intro h
  have hdigit : 'n'.isDigit = true := Decimal.isDigit_of_mem_write (h.subset (by decide))
  exact absurd hdigit (by decide)

/-- **A written version ends like the name of a nightly build** if its last identifier does. -/
theorem isName_write_iff (v : Version) : IsName v.write ↔ v.EndsInNightly := by
  have hpoint : '.' ∉ word := by decide
  -- The last identifier belongs to the build metadata, or else to the prerelease, if there is one.
  rcases List.eq_nil_or_concat' v.build with hbuild | ⟨is, i, hbuild⟩
  · rcases List.eq_nil_or_concat' v.pre with hpre | ⟨is, i, hpre⟩
    · have hlast : v.lastIdentifier? = none := by
        simp [Version.lastIdentifier?, hbuild, hpre]
      have hwrite : v.write = v.numbersText := by
        simp [Version.write_eq_coreText_append, Version.coreText, hbuild, hpre]
      rw [hwrite]
      exact iff_of_false (not_isName_numbersText v) (by simp [Version.EndsInNightly, hlast])
    · have hlast : v.lastIdentifier? = some i.text := by
        simp [Version.lastIdentifier?, hbuild, hpre]
      have hwrite : v.write = v.numbersText ++
          '-' :: ['.'].intercalate (is.map (·.text) ++ [i.text]) := by
        simp [Version.write_eq_coreText_append, Version.coreText, hbuild, hpre, dotted]
      rw [Version.endsInNightly_iff hlast, IsName, hwrite,
        Text.suffix_append_cons_intercalate_iff hpoint (by decide)]
  · have hlast : v.lastIdentifier? = some i.text := by
      simp [Version.lastIdentifier?, hbuild]
    have hwrite : v.write = v.coreText ++
        '+' :: ['.'].intercalate (is.map (·.text) ++ [i.text]) := by
      simp [Version.write_eq_coreText_append, hbuild, dotted]
    rw [Version.endsInNightly_iff hlast, IsName, hwrite,
      Text.suffix_append_cons_intercalate_iff hpoint (by decide)]

end Nightly

/-! ### The first binary -/

namespace Catalog

variable {c : Catalog} {platform : Platform} {files : List Binary} {binary : Binary}
  {version : Text} {release : Release}

/-- Whether a binary is the first of some that was built for a platform. -/
def IsFirstFor (platform : Platform) (files : List Binary) (binary : Binary) : Prop :=
  IsFor platform binary ∧ ∃ before after, files = before ++ binary :: after ∧
    ∀ b ∈ before, ¬ IsFor platform b

theorem find?_eq_some_iff :
    files.find? (IsFor platform) = some binary ↔ IsFirstFor platform files binary := by
  simp [IsFirstFor, List.find?_eq_some_iff_append]

/-- Where there is a binary for a platform, there is a first one. -/
theorem exists_isFirstFor (h : ∃ binary ∈ files, IsFor platform binary) :
    ∃ binary, IsFirstFor platform files binary := by
  have hfound : (files.find? (IsFor platform)).isSome = true :=
    List.find?_isSome.mpr (by simpa using h)
  obtain ⟨binary, hbinary⟩ := Option.isSome_iff_exists.mp hfound
  exact ⟨binary, find?_eq_some_iff.mp hbinary⟩

/-- What is not taken for a nightly build has the first binary of its record. -/
theorem binary?_eq_first (hnightly : ¬ Nightly.IsName version)
    (hrelease : c.get? version = some release)
    (hfirst : IsFirstFor platform release.files binary) :
    c.binary? version platform = .ok (some binary) := by
  simp only [binary?, if_neg hnightly, hrelease, find?_eq_some_iff.mpr hfirst]

end Catalog

open Catalog in
/-- **Which listed versions are found.** Let a request name a version in full, and let the catalog
have a record of this version with a binary for the platform. The address of the first such binary
is the one to download from. The lookup finds this binary if and only if the last identifier of the
version does not end in `nightly`; otherwise it finds none, and the version counts as unknown. -/
theorem listed_version_found_iff {c : Catalog} {version : Text} {platform : Platform}
    {release : Release} (hexact : Request.read version = .exact version)
    (hrelease : c.get? version = some release)
    (hbuilt : ∃ binary ∈ release.files, IsFor platform binary) :
    ∃ v binary, Version.read? version = some v ∧ IsFirstFor platform release.files binary ∧
      downloadAddress (some binary) version platform = .ok binary.url ∧
      (c.binary? version platform = .ok (some binary) ↔ ¬ v.EndsInNightly) ∧
      (c.address version platform = .ok binary.url ↔ ¬ v.EndsInNightly) ∧
      (v.EndsInNightly → c.binary? version platform = .ok none ∧
        c.address version platform = .error (.unknownVersion version)) := by
  obtain ⟨v, hv, rfl⟩ := Request.read_eq_exact_iff.mp hexact
  obtain ⟨binary, hfirst⟩ := exists_isFirstFor hbuilt
  have hdownload := downloadAddress_write (some binary) v platform
  refine ⟨v, binary, (Tag.version?_eq_some_iff.mp hv).1, hfirst, hdownload, ?_⟩
  rw [← Nightly.isName_write_iff]
  by_cases hnightly : Nightly.IsName v.write
  · have hbinary : c.binary? v.write platform = .ok none := if_pos hnightly
    have haddress : c.address v.write platform = .error (.unknownVersion v.write) :=
      (address_eq_unknownVersion_iff v platform).mpr (.inr hnightly)
    simp [hbinary, haddress, hnightly]
  · have hbinary := binary?_eq_first hnightly hrelease hfirst
    have haddress : c.address v.write platform = .ok binary.url := by
      rw [address, hbinary]
      exact hdownload
    simp [hbinary, haddress, hnightly]

open Catalog in
/-- A release candidate with two binaries for the platform, behind one for another platform. -/
theorem listed_version_found_iff_rc :
    let version := "1.7.0-rc1".toList
    let platform : Platform := ⟨.linux, .x64⟩
    let files : List Binary :=
      [{ os := "mac".toList, arch := "x86_64".toList, url := "a".toList, sha256 := [] },
        { os := "linux".toList, arch := "x86_64".toList, url := "b".toList, sha256 := [] },
        { os := "linux".toList, arch := "x86_64".toList, url := "c".toList, sha256 := [] }]
    let c : Catalog := ⟨[(version, { files })]⟩
    Request.read version = .exact version ∧ c.get? version = some { files } ∧
      (∃ binary ∈ files, IsFor platform binary) ∧
      ∃ v binary, Version.read? version = some v ∧ IsFirstFor platform files binary ∧
        downloadAddress (some binary) version platform = .ok binary.url ∧
        (c.binary? version platform = .ok (some binary) ↔ ¬ v.EndsInNightly) ∧
        (c.address version platform = .ok binary.url ↔ ¬ v.EndsInNightly) ∧
        (v.EndsInNightly → c.binary? version platform = .ok none ∧
          c.address version platform = .error (.unknownVersion version)) := by
  intro version platform files c
  have hexact : Request.read version = .exact version := rfl
  have hrelease : c.get? version = some { files } := rfl
  have hbuilt : ∃ binary ∈ files, IsFor platform binary := by decide
  exact ⟨hexact, hrelease, hbuilt, listed_version_found_iff hexact hrelease hbuilt⟩

open Catalog in
/-- A catalog lists `1.6.0-nightly` with a binary, and a request names this version in full. But
there is no address to download it from: the version is said not to be listed. -/
theorem exists_listed_version_not_found :
    ∃ c release binary,
      Catalog.read ("\x7b\"1.6.0-nightly\":\x7b\"files\":[\x7b\"os\":\"linux\"," ++
        "\"arch\":\"x86_64\",\"url\":\"a\",\"sha256\":\"b\"\x7d]\x7d\x7d").toList = .ok c ∧
      Request.read "1.6.0-nightly".toList = .exact "1.6.0-nightly".toList ∧
      c.get? "1.6.0-nightly".toList = some release ∧
      IsFirstFor ⟨.linux, .x64⟩ release.files binary ∧
      c.binary? "1.6.0-nightly".toList ⟨.linux, .x64⟩ = .ok none ∧
      c.address "1.6.0-nightly".toList ⟨.linux, .x64⟩ =
        .error (.unknownVersion "1.6.0-nightly".toList) := by
  let binary : Binary :=
    { os := "linux".toList, arch := "x86_64".toList, url := "a".toList, sha256 := "b".toList }
  exact ⟨⟨[("1.6.0-nightly".toList, { files := [binary] })]⟩, { files := [binary] }, binary, rfl,
    rfl, rfl, find?_eq_some_iff.mp rfl, rfl, rfl⟩

end JuliaReleases
