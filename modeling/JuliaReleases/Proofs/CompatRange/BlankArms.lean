import JuliaReleases.Proofs.CompatRange.Composite

/-!
# Blank arms

A text in the range notation is read in two ways. As a range, `JuliaReleases.Range.read` makes an
arm of every piece between marks `||`; a blank piece is an arm without bounds, which admits every
release. As a compat range, `JuliaReleases.CompatRange.ofComposite` leaves blank pieces out, checks
the others one by one and keeps them as texts, and these make a range again.

On the pieces that are not blank the two agree, wherever they stand and whatever blanks are around
them: a piece is refused by both or by none, and it has the same members for both. So the texts that
are accepted are the same (`JuliaReleases.CompatRange.exists_ofComposite_iff`), and what the ranges
differ in is what the blank pieces admit (`JuliaReleases.composite_leaves_out_blank_arms`).
-/

namespace JuliaReleases

/-- A blank piece is an arm without bounds. -/
theorem Arm.read_of_blank (policy : PrereleasePolicy) {piece : Text} (h : Text.trim piece = []) :
    Arm.read policy piece = .ok ⟨[]⟩ := by
  rw [← Arm.read_trim, h]
  rfl

/-- An arm without bounds names no prerelease. -/
theorem Arm.admits_nil_iff {v : Version} : Arm.Admits .named ⟨[]⟩ v ↔ ¬ v.IsPrerelease := by
  simp [Admits, Names]

namespace CompatRange

variable {text : Text} {c : CompatRange} {v : Version}

/-- **The same texts are accepted** as a compat range and as a range. -/
theorem exists_ofComposite_iff :
    (∃ c, ofComposite text = .ok c) ↔ ∃ r, Range.read .named text = .ok r := by
  rw [Range.exists_read_iff_pieces]
  constructor
  · rintro ⟨c, hc⟩ piece hpiece
    by_cases hblank : Text.trim piece = []
    · exact ⟨_, Arm.read_of_blank .named hblank⟩
    · obtain ⟨r, hr⟩ := (ofComposite_eq_ok_iff.mp hc).2 _
        (mem_writtenArms_iff.mpr ⟨piece, hpiece, hblank, rfl⟩)
      rw [Range.read_trim_piece .named hpiece] at hr
      obtain ⟨arm, harm, -⟩ := map_eq_ok_iff.mp hr
      exact ⟨arm, harm⟩
  · intro h
    refine ⟨⟨writtenArms text⟩, ofComposite_eq_ok_iff.mpr ⟨rfl, fun arm harm => ?_⟩⟩
    obtain ⟨piece, hpiece, -, rfl⟩ := mem_writtenArms_iff.mp harm
    obtain ⟨arm, harm⟩ := h piece hpiece
    exact ⟨_, by rw [Range.read_trim_piece .named hpiece, harm]; rfl⟩

/-- What a compat range admits is what the pieces admit that are not blank. -/
theorem admits_iff_of_ofComposite (h : ofComposite text = .ok c) : c.Admits .named v ↔
    ∃ piece ∈ Text.pieces "||".toList text, Text.trim piece ≠ [] ∧
      ∃ arm, Arm.read .named piece = .ok arm ∧ arm.Admits .named v := by
  simp only [Admits, (ofComposite_eq_ok_iff.mp h).1, mem_writtenArms_iff]
  constructor
  · rintro ⟨_, ⟨piece, hpiece, hne, rfl⟩, r, hr, hv⟩
    rw [Range.read_trim_piece .named hpiece] at hr
    obtain ⟨arm, harm, rfl⟩ := map_eq_ok_iff.mp hr
    exact ⟨piece, hpiece, hne, arm, harm, Range.mem_singleton_iff.mp hv⟩
  · rintro ⟨piece, hpiece, hne, arm, harm, hv⟩
    refine ⟨_, ⟨piece, hpiece, hne, rfl⟩, ⟨[arm], .named⟩, ?_, Range.mem_singleton_iff.mpr hv⟩
    rw [Range.read_trim_piece .named hpiece, harm]
    rfl

end CompatRange

open CompatRange in
/-- **A compat range keeps the meaning of the arms that are written.** A text is a compat range if
and only if it is a range. If some arm is not blank, the arms of the compat range make a range
again, which has the members of the arms that are not blank. The text itself, read as a range, has
the same members, and with a blank arm every release, too. -/
theorem composite_leaves_out_blank_arms (text : Text) :
    ((∃ c, ofComposite text = .ok c) ↔ ∃ r, Range.ofText .named text = .ok r) ∧
      ∀ c r, ofComposite text = .ok c → Range.ofText .named text = .ok r →
        (∃ piece ∈ Text.pieces "||".toList text, Text.trim piece ≠ []) →
        ∃ s, c.range = .ok s ∧
          (∀ v, v ∈ s ↔ ∃ piece ∈ Text.pieces "||".toList text, Text.trim piece ≠ [] ∧
            ∃ arm, Arm.read .named piece = .ok arm ∧ arm.Admits .named v) ∧
          ∀ v, v ∈ r ↔ v ∈ s ∨
            (∃ piece ∈ Text.pieces "||".toList text, Text.trim piece = []) ∧ ¬ v.IsPrerelease := by
  refine ⟨?_, fun c r hc hr hwritten => ?_⟩
  · simp only [Range.ofText, mapError_eq_ok_iff]
    exact exists_ofComposite_iff
  · obtain ⟨harms, hranges⟩ := ofComposite_eq_ok_iff.mp hc
    have hne : c.arms ≠ [] := by
      obtain ⟨piece, hpiece, hpiece'⟩ := hwritten
      rw [harms]
      exact List.ne_nil_of_mem (mem_writtenArms_iff.mpr ⟨piece, hpiece, hpiece', rfl⟩)
    obtain ⟨s, hs⟩ := exists_read_composite hne (harms ▸ hranges)
    have hmem : ∀ v, v ∈ s ↔ _ := fun v =>
      (mem_composite_iff hne hs).trans (admits_iff_of_ofComposite hc)
    refine ⟨s, mapError_eq_ok_iff.mpr hs, hmem, fun v => ?_⟩
    rw [Range.mem_iff_exists_piece (mapError_eq_ok_iff.mp hr), hmem]
    constructor
    · rintro ⟨piece, hpiece, arm, harm, hv⟩
      by_cases hblank : Text.trim piece = []
      · rw [Arm.read_of_blank .named hblank] at harm
        obtain rfl := Except.ok.inj harm
        exact .inr ⟨⟨piece, hpiece, hblank⟩, Arm.admits_nil_iff.mp hv⟩
      · exact .inl ⟨piece, hpiece, hblank, arm, harm, hv⟩
    · rintro (⟨piece, hpiece, -, harm⟩ | ⟨⟨piece, hpiece, hblank⟩, hv⟩)
      · exact ⟨piece, hpiece, harm⟩
      · exact ⟨piece, hpiece, _, Arm.read_of_blank .named hblank, Arm.admits_nil_iff.mpr hv⟩

open CompatRange in
/-- Two arms with blanks around them, and a blank one at the end. -/
theorem composite_leaves_out_blank_arms_last :
    ofComposite " ^1.6 ||>=2 <3|| ".toList = .ok ⟨["^1.6".toList, ">=2 <3".toList]⟩ ∧
      ∃ r, Range.ofText .named " ^1.6 ||>=2 <3|| ".toList = .ok r ∧
        (∃ piece ∈ Text.pieces "||".toList " ^1.6 ||>=2 <3|| ".toList, Text.trim piece ≠ []) ∧
        ∃ s, (CompatRange.mk ["^1.6".toList, ">=2 <3".toList]).range = .ok s ∧
          ∀ v, v ∈ r ↔ v ∈ s ∨ ¬ v.IsPrerelease := by
  have hread : ofComposite " ^1.6 ||>=2 <3|| ".toList =
      .ok ⟨["^1.6".toList, ">=2 <3".toList]⟩ := rfl
  have hrange : Range.ofText .named " ^1.6 ||>=2 <3|| ".toList = .ok _ := rfl
  have hwritten : ∃ piece ∈ Text.pieces "||".toList " ^1.6 ||>=2 <3|| ".toList,
      Text.trim piece ≠ [] := by decide
  obtain ⟨s, hs, -, hmem⟩ :=
    (composite_leaves_out_blank_arms " ^1.6 ||>=2 <3|| ".toList).2 _ _ hread hrange hwritten
  have hblank : ∃ piece ∈ Text.pieces "||".toList " ^1.6 ||>=2 <3|| ".toList,
      Text.trim piece = [] := by decide
  exact ⟨hread, _, hrange, hwritten, s, hs, fun v => by rw [hmem, and_iff_right hblank]⟩

open CompatRange in
/-- Read as a range, `1||` has every release; its compat range has those of `1`. -/
theorem exists_composite_with_other_members : ∃ (text : Text) (c : CompatRange) (r s : Range),
    ofComposite text = .ok c ∧ Range.ofText .named text = .ok r ∧
      (∃ piece ∈ Text.pieces "||".toList text, Text.trim piece ≠ []) ∧ c.range = .ok s ∧
      ({ major := 2, minor := 0, patch := 0 } : Version) ∈ r ∧
      ({ major := 2, minor := 0, patch := 0 } : Version) ∉ s :=
  ⟨"1||".toList, ⟨["1".toList]⟩, _, _, rfl, rfl, by decide, rfl, by decide, by decide⟩

end JuliaReleases
