import JuliaReleases.Proofs.Catalog.Nightly
import JuliaReleases.Proofs.Range.Caret
import JuliaReleases.Proofs.Range.Partition
import JuliaReleases.Proofs.Range.RoundTrip
import JuliaReleases.Proofs.Resolution.Pin

/-!
# A range of one version

A version behind `=` is a range, and this version is its only member: a prerelease, too, whatever
the policy on prereleases is, since the range names it. So a request for such a range finds the
version wherever it is listed, although nothing but the text of the range is left of it
(`JuliaReleases.exact_range_finds_version`).

One thing comes in between. A request that ends in the word for nightly builds is the name of one,
and its own answer, although what stands behind the `=` may well be a listed prerelease. Build
metadata is no part of a range, so the statement is about versions without it.
-/

namespace JuliaReleases

/-- The text of the range of one version: the version behind `=`. -/
def Version.exactRange (v : Version) : Text :=
  Operator.eq.write ++ v.write

/-! ### The range -/

namespace PartialVersion

/-- **Without build metadata, a written version is read as the full version that it is.** -/
theorem read_write {v : Version} (hread : Version.read? v.write = some v) (hbuild : v.build = []) :
    read v.write = .ok (.full v.major v.minor v.patch v.pre) := by
  obtain ⟨hmajor, hminor, hpatch⟩ := Version.le_maxNumber_of_read? hread
  have hwrite : v.write = v.coreText := by
    rw [Version.write_eq_coreText_append, if_pos hbuild, List.append_nil]
  rw [hwrite]
  exact read_coreText hmajor hminor hpatch

end PartialVersion

namespace Range

/-- **A version behind `=` is a range with this version as its only member.** -/
theorem exists_read_exactRange (policy : PrereleasePolicy) {v : Version}
    (hread : Version.read? v.write = some v) (hbuild : v.build = []) :
    ∃ r, Range.read policy v.exactRange = .ok r ∧ ∀ w, w ∈ r ↔ w = v := by
  have hp := PartialVersion.read_write hread hbuild
  have hbar : '|' ∉ v.write := fun hmem => by
    rcases Version.isIdentifierChar_of_mem_write hmem with h | h | h <;> exact absurd h (by decide)
  have htoken : IsToken v.write := isToken_of_read hp v.isWord_write.2 hbar
  refine ⟨_, htoken.read_operator hp .eq, fun w => ?_⟩
  rw [PartialVersion.mem_exact_full_iff, ← hbuild]

end Range

/-! ### The request -/

namespace Request

/-- The range of a version is not the version in full. -/
theorem not_isConcrete_exactRange (v : Version) : ¬ Tag.IsConcrete v.exactRange :=
  Tag.not_isConcrete_cons (by decide) rfl

theorem trim_exactRange (v : Version) : Text.trim v.exactRange = v.exactRange := by
  refine Text.trim_of_isWord ⟨List.cons_ne_nil _ _, List.forall_mem_cons.mpr ⟨rfl, ?_⟩⟩
  exact v.isWord_write.2

/-- What the range of a version ends in is what the version ends in. -/
theorem isName_exactRange_iff (v : Version) : Nightly.IsName v.exactRange ↔ v.EndsInNightly := by
  have hcons : v.exactRange = [] ++ '=' :: v.write := rfl
  rw [← Nightly.isName_write_iff, Nightly.IsName, hcons, Text.suffix_append_cons_iff (by decide)]
  rfl

theorem read_exactRange_of_endsInNightly {v : Version} (h : v.EndsInNightly) :
    read v.exactRange = .nightly v.exactRange :=
  read_eq_nightly_iff.mpr
    ⟨trim_exactRange v, not_isConcrete_exactRange v, (isName_exactRange_iff v).mpr h⟩

theorem read_exactRange {v : Version} (h : ¬ v.EndsInNightly) :
    read v.exactRange = .range v.exactRange := by
  refine read_eq_range_iff.mpr ⟨trim_exactRange v, not_isConcrete_exactRange v,
    mt (isName_exactRange_iff v).mp h, ?_⟩
  -- None of the three words starts with `=`.
  refine ⟨?_, ?_, ?_⟩ <;> exact fun heq => absurd (List.cons.inj heq).1 (by decide)

end Request

/-- **The range of one version finds the version**, if it is listed and has no build metadata,
whatever the policy on prereleases. But if the last identifier of the version ends in the word for
nightly builds, then the range is taken for the name of one, and is its own answer. -/
theorem exact_range_finds_version {tags : List Text} {tag : Text} {v : Version} (htag : tag ∈ tags)
    (hv : Tag.version? tag = some v) (settings : Settings) (policy : PrereleasePolicy)
    (compat : Option CompatRange) :
    (v.EndsInNightly → resolve settings tags v.exactRange policy compat = .ok v.exactRange) ∧
    (¬ v.EndsInNightly → v.build = [] →
      resolve settings tags v.exactRange policy compat = .ok v.write) := by
  refine ⟨fun hnightly => ?_, fun hnightly hbuild => ?_⟩
  · exact (Answers.nightly (Request.read_exactRange_of_endsInNightly hnightly)).resolve_eq
  · have hlisted : v ∈ Tag.versions tags := List.mem_filterMap.mpr ⟨tag, htag, hv⟩
    have hread := Request.read_exactRange hnightly
    obtain ⟨r, hr, hmem⟩ := Range.exists_read_exactRange policy
      (Tag.read?_write_of_mem_versions hlisted) hbuild
    have hgreatest : IsGreatest (Resolution.candidates settings policy compat (Tag.versions tags)
        (Request.read v.exactRange)) v := by
      rw [hread]
      refine ⟨⟨hlisted, r, hr, (hmem v).mpr rfl⟩, ?_⟩
      -- No other version is a candidate.
      rintro w ⟨-, r', hr', hw⟩
      obtain rfl := Except.ok.inj (hr.symm.trans hr')
      exact ((hmem w).mp hw).le
    exact (Answers.greatest (.inr (.inr ⟨_, hread⟩)) hgreatest).resolve_eq

/-- A release candidate is found although prereleases are not included, and a prerelease with the
word for nightly builds is not. -/
theorem exact_range_finds_version_rc :
    let tags := ["v1.7.0-rc1".toList, "v1.7.0-nightly".toList]
    let rc : Version :=
      { major := 1, minor := 7, patch := 0, pre := [⟨"rc1".toList, by decide⟩] }
    let nightly : Version :=
      { major := 1, minor := 7, patch := 0, pre := [⟨"nightly".toList, by decide⟩] }
    (Tag.version? "v1.7.0-rc1".toList = some rc ∧ ¬ rc.EndsInNightly ∧ rc.build = [] ∧
      resolve {} tags rc.exactRange .named none = .ok rc.write) ∧
    Tag.version? "v1.7.0-nightly".toList = some nightly ∧ nightly.EndsInNightly ∧
      resolve {} tags nightly.exactRange .named none = .ok nightly.exactRange := by
  intro tags rc nightly
  have hrc : ¬ rc.EndsInNightly := (Version.endsInNightly_iff rfl).not.mpr (by decide)
  have hnightly : nightly.EndsInNightly := (Version.endsInNightly_iff rfl).mpr (by decide)
  have hrcTag : "v1.7.0-rc1".toList ∈ tags := by decide
  have hnightlyTag : "v1.7.0-nightly".toList ∈ tags := by decide
  refine ⟨⟨rfl, hrc, rfl, ?_⟩, rfl, hnightly, ?_⟩
  · exact (exact_range_finds_version hrcTag rfl {} .named none).2 hrc rfl
  · exact (exact_range_finds_version hnightlyTag rfl {} .named none).1 hnightly

/-- The range of `1.6.0-nightly` is taken for the name of a nightly build, and the range of a
version with build metadata does not have this version. -/
theorem exists_exact_range_misses_version :
    (∃ v, Tag.version? "1.6.0-nightly".toList = some v ∧ v.write = "1.6.0-nightly".toList ∧
      resolve {} ["1.6.0-nightly".toList] v.exactRange .named none =
        .ok "=1.6.0-nightly".toList) ∧
    ∃ v, Tag.version? "1.2.3+b1".toList = some v ∧ v.write = "1.2.3+b1".toList ∧
      resolve {} ["1.2.3+b1".toList] v.exactRange .named none =
        .error (.noMatch "=1.2.3+b1".toList) :=
  ⟨⟨_, rfl, rfl, rfl⟩, _, rfl, rfl, rfl⟩

end JuliaReleases
