import JuliaReleases.Proofs.Range.Term
import JuliaReleases.Proofs.Resolution.Answer

/-!
# Prereleases enter by name only

Unless prereleases are included, a range admits one only where it has a bound that is a prerelease
of the same release. But most bounds are derived, and the derived upper bounds are prereleases
themselves, such as the `<2.0.0-0` that `^1.2` stands for. This file shows that they never let
anything in: what counts is what is **written**.

The reason is in `JuliaReleases.Version.lt_floor_iff`. A version that meets an upper bound `-0` has
smaller numbers, so it is no prerelease of the release that the bound belongs to. The derived lower
bounds are no prereleases as long as prereleases are not included.
-/

namespace JuliaReleases

/-! ### What is written -/

/-- Whether a prerelease of the release of `v` is written in the text of an arm. -/
def Arm.TextNames (text : Text) (v : Version) : Prop :=
  ∃ version ∈ Arm.versionTexts text, ∃ pre, pre ≠ [] ∧
    PartialVersion.read version = .ok (.full v.major v.minor v.patch pre)

/-- Whether a prerelease of the release of `v` is written in the text of a range. -/
def Range.TextNames (text : Text) (v : Version) : Prop :=
  ∃ arm ∈ Text.pieces "||".toList text, Arm.TextNames arm v

namespace Arm

variable {text : Text} {arm : Arm} {v : Version}

/-- What is written is a bound, so it counts. -/
theorem names_of_textNames (h : Arm.read .named text = .ok arm) (hname : TextNames text v) :
    arm.Names v := by
  rw [Arm.read_eq] at h
  obtain ⟨terms, hterms, rfl⟩ := map_eq_ok_iff.mp h
  obtain ⟨version, hversion, pre, hpre, hread⟩ := hname
  obtain ⟨p, hp, hok⟩ := exists_mem_of_mem_read (Arm.map_read_versionTexts hterms) hversion
  obtain ⟨t, ht, rfl⟩ := List.mem_map.mp hp
  have htversion : t.version = .full v.major v.minor v.patch pre :=
    Except.ok.inj (hok.symm.trans hread)
  obtain ⟨bound, hbound, hboundversion⟩ :=
    Term.exists_bound_of_pre_ne_nil .named htversion hpre
  refine ⟨bound, List.mem_flatMap.mpr ⟨t, ht, hbound⟩, ?_⟩
  rw [hboundversion]
  exact ⟨hpre, rfl⟩

/-- **A derived bound lets nothing in**: where a version meets all bounds, the arm names it only if
it is written. -/
theorem textNames_of_names (h : Arm.read .named text = .ok arm)
    (hadmits : ∀ c ∈ arm.comparators, c.Admits v) (hname : arm.Names v) : TextNames text v := by
  rw [Arm.read_eq] at h
  obtain ⟨terms, hterms, rfl⟩ := map_eq_ok_iff.mp h
  obtain ⟨bound, hbound, hpre, hrelease⟩ := hname
  have hboundadmits := hadmits bound hbound
  obtain ⟨t, ht, htbound⟩ := List.mem_flatMap.mp hbound
  cases Term.bound_of_mem_bounds (Arm.le_maxNumber_of_readTerms hterms ht) htbound with
  | @written r a b c pre hversion =>
    obtain ⟨version, hmem, hread⟩ :=
      exists_mem_of_mem_results (Arm.map_read_versionTexts hterms) (List.mem_map_of_mem ht)
    simp only [Version.release, Version.mk.injEq, and_true] at hrelease
    obtain ⟨rfl, rfl, rfl⟩ := hrelease
    exact ⟨version, hmem, pre, hpre, hread.trans (congrArg Except.ok hversion)⟩
  | lower => exact absurd rfl hpre
  | @upper a b c =>
    -- The bound would have the numbers of `v`, but `v` comes before it.
    have hlt : v.numbers < [a, b, c] := Version.lt_floor_iff.mp hboundadmits
    have heq : v.numbers = [a, b, c] := by
      simp only [Version.release, Version.floor, Version.mk.injEq, and_true] at hrelease
      obtain ⟨rfl, rfl, rfl⟩ := hrelease
      rfl
    exact absurd hlt (heq ▸ lt_irrefl _)

/-- A prerelease belongs to an arm if it meets the bounds and is written there. -/
theorem admits_named_iff (h : Arm.read .named text = .ok arm) (hv : v.IsPrerelease) :
    arm.Admits .named v ↔ (∀ c ∈ arm.comparators, c.Admits v) ∧ TextNames text v := by
  constructor
  · rintro ⟨hadmits, hnames⟩
    exact ⟨hadmits, textNames_of_names h hadmits (hnames hv rfl)⟩
  · rintro ⟨hadmits, hname⟩
    exact ⟨hadmits, fun _ _ => names_of_textNames h hname⟩

end Arm

/-- A prerelease that belongs to a range is written in one of its arms. -/
theorem Range.textNames_of_mem {text : Text} {r : Range} (h : Range.read .named text = .ok r)
    {v : Version} (hv : v.IsPrerelease) (hmem : v ∈ r) : Range.TextNames text v := by
  obtain ⟨arms, harms, hr⟩ := bind_eq_ok_iff.mp h
  obtain rfl := Except.ok.inj hr
  obtain ⟨arm, harm, hadmits⟩ := hmem
  obtain ⟨piece, hpiece, hread⟩ := exists_mem_of_mem_results (mapM_eq_ok_iff.mp harms) harm
  exact ⟨piece, hpiece, ((Arm.admits_named_iff hread hv).mp hadmits).2⟩

/-- **Prereleases enter by name only.** A prerelease belongs to an arm if and only if it meets the
bounds and a prerelease of the same release is written in the arm. So a range in which no prerelease
is written has no prerelease as a member, and a request for such a range is answered with a full
release. -/
theorem prerelease_admitted_iff_written :
    (∀ (text : Text) (arm : Arm) (v : Version), Arm.read .named text = .ok arm → v.IsPrerelease →
      (arm.Admits .named v ↔ (∀ c ∈ arm.comparators, c.Admits v) ∧ Arm.TextNames text v)) ∧
    (∀ (text : Text) (r : Range), Range.read .named text = .ok r →
      (∀ v, ¬ Range.TextNames text v) → ∀ v ∈ r, ¬ v.IsPrerelease) ∧
    (∀ (settings : Settings) (tags : List Text) (request : Text) (compat : Option CompatRange)
      (text answer : Text), Request.read request = .range text →
      (∀ v, ¬ Range.TextNames text v) →
      resolve settings tags request .named compat = .ok answer →
      ∃ v ∈ Tag.versions tags, ¬ v.IsPrerelease ∧ answer = v.write) := by
  refine ⟨fun text arm v h hv => Arm.admits_named_iff h hv, ?_, ?_⟩
  · intro text r h hnone v hmem hv
    exact hnone v (Range.textNames_of_mem h hv hmem)
  · intro settings tags request compat text answer hread hnone h
    obtain ⟨v, ⟨hv, hfits⟩, hanswer⟩ :=
      exists_candidate_of_resolve_eq_ok (by simp [hread]) (by simp [hread]) h
    rw [hread] at hfits
    obtain ⟨r, hr, hmem⟩ := hfits
    exact ⟨v, hv, fun hpre => hnone v (Range.textNames_of_mem hr hpre hmem), hanswer⟩

/-- No prerelease is written in `^1.2`. -/
theorem not_textNames_caret (v : Version) : ¬ Range.TextNames "^1.2".toList v := by
  rintro ⟨arm, harm, version, hversion, pre, -, hread⟩
  obtain rfl : arm = "^1.2".toList := List.mem_singleton.mp harm
  obtain rfl : version = "1.2".toList := List.mem_singleton.mp hversion
  have hminor : PartialVersion.minor 1 2 = .full v.major v.minor v.patch pre :=
    Except.ok.inj hread
  exact absurd hminor (by simp)

/-- The range `^1.3.0-rc1` names `1.3.0-rc4`, but the range `^1.2` names nothing and is answered
with a full release. -/
theorem prerelease_admitted_caret :
    (∃ (arm : Arm) (v : Version), Arm.read .named "^1.3.0-rc1".toList = .ok arm ∧
      v.IsPrerelease ∧ v.write = "1.3.0-rc4".toList ∧ (arm.Admits .named v ↔
        (∀ c ∈ arm.comparators, c.Admits v) ∧ Arm.TextNames "^1.3.0-rc1".toList v) ∧
      arm.Admits .named v) ∧
    (∃ r, Range.read .named "^1.2".toList = .ok r ∧ (∀ v ∈ r, ¬ v.IsPrerelease) ∧
      ∃ v ∈ r, v.write = "1.3.0".toList) ∧
    ∃ answer, resolve {} ["v1.3.0".toList, "v1.3.1-rc1".toList] "^1.2".toList .named none =
      .ok answer ∧ answer = "1.3.0".toList ∧
        ∃ v ∈ Tag.versions ["v1.3.0".toList, "v1.3.1-rc1".toList],
          ¬ v.IsPrerelease ∧ answer = v.write := by
  refine ⟨⟨_, { major := 1, minor := 3, patch := 0, pre := [⟨"rc4".toList, by decide⟩] }, rfl,
      by decide, rfl, ?_, by decide⟩,
    ⟨_, rfl, ?_, { major := 1, minor := 3, patch := 0 }, by decide, rfl⟩,
    "1.3.0".toList, ?_, rfl, ?_⟩
  · exact prerelease_admitted_iff_written.1 _ _ _ rfl (by decide)
  · exact prerelease_admitted_iff_written.2.1 "^1.2".toList _ rfl not_textNames_caret
  · rfl
  · exact prerelease_admitted_iff_written.2.2 {} _ "^1.2".toList none _ _ rfl
      not_textNames_caret rfl

end JuliaReleases
