import JuliaReleases.Proofs.Range.Term
import JuliaReleases.Proofs.Text.Occurrence

/-!
# Ranges with `||` between them

A text with several ranges in it, with ` || ` between them, is read as one range, and that range is
their **union**: it has the arms of all of them, in order (`JuliaReleases.Range.read_intercalate`).
Nothing is asked of the texts. A separator that starts in one of them cannot end behind it, since a
blank follows, and blanks around an arm do not count.

So the joined text is a range if and only if each of the texts is one
(`JuliaReleases.Range.exists_read_intercalate_iff`), and its members are the members of any of them
(`JuliaReleases.Range.mem_iff_of_read_intercalate`).

Any text is cut into pieces without the mark, each of which is an arm, and the same holds of these
(`JuliaReleases.Range.exists_read_iff_pieces`, `JuliaReleases.Range.mem_iff_exists_piece`).
-/

namespace JuliaReleases.Range

variable {policy : PrereleasePolicy} {texts : List Text} {ranges : List Range} {r : Range}
  {v : Version}

/-- The range with the arms of several ranges. -/
def union (policy : PrereleasePolicy) (ranges : List Range) : Range where
  arms := ranges.flatMap (·.arms)
  policy := policy

theorem mem_union_iff (h : ∀ r ∈ ranges, r.policy = policy) :
    v ∈ union policy ranges ↔ ∃ r ∈ ranges, v ∈ r := by
  constructor
  · rintro ⟨arm, harm, hadmits⟩
    obtain ⟨r, hr, hmem⟩ := List.mem_flatMap.mp harm
    exact ⟨r, hr, arm, hmem, (h r hr).symm ▸ hadmits⟩
  · rintro ⟨r, hr, arm, harm, hadmits⟩
    exact ⟨arm, List.mem_flatMap.mpr ⟨r, hr, harm⟩, h r hr ▸ hadmits⟩

theorem policy_of_read {text : Text} (h : Range.read policy text = .ok r) : r.policy = policy := by
  obtain ⟨arms, -, hr⟩ := bind_eq_ok_iff.mp h
  exact congrArg Range.policy (Except.ok.inj hr).symm

/-- Blanks around the arms do not count. -/
theorem mapM_read_trim (policy : PrereleasePolicy) (arms : List Text) :
    (arms.map Text.trim).mapM (Arm.read policy) = arms.mapM (Arm.read policy) := by
  rw [List.mapM_map]
  exact congrArg arms.mapM (funext (Arm.read_trim policy))

/-- **Ranges with `||` between them are read as their union.** -/
theorem read_intercalate (policy : PrereleasePolicy) (hne : texts ≠ []) :
    Range.read policy (" || ".toList.intercalate texts) =
      union policy <$> texts.mapM (Range.read policy) := by
  have hpieces : (Text.pieces "||".toList (" || ".toList.intercalate texts)).map Text.trim =
      (texts.flatMap (Text.pieces "||".toList)).map Text.trim :=
    Text.map_trim_pieces_intercalate (by decide) (by decide) (by decide) hne
  have harms : (Text.pieces "||".toList (" || ".toList.intercalate texts)).mapM
      (Arm.read policy) = List.flatten <$> texts.mapM fun text =>
        (Text.pieces "||".toList text).mapM (Arm.read policy) := by
    rw [← mapM_read_trim, hpieces, mapM_read_trim, mapM_flatMap_eq]
  have hread : texts.mapM (Range.read policy) = List.map (Range.mk · policy) <$>
      texts.mapM fun text => (Text.pieces "||".toList text).mapM (Arm.read policy) :=
    mapM_map_eq
  rw [Range.read, harms, hread]
  cases texts.mapM fun text => (Text.pieces "||".toList text).mapM (Arm.read policy) with
  | error e => rfl
  | ok arms =>
    have hunion : union policy (arms.map (Range.mk · policy)) = ⟨arms.flatten, policy⟩ := by
      simp [union, List.flatMap_map, List.flatMap_id']
    exact congrArg Except.ok hunion.symm

/-- Ranges with `||` between them are a range if and only if each of them is one. -/
theorem exists_read_intercalate_iff (hne : texts ≠ []) :
    (∃ r, Range.read policy (" || ".toList.intercalate texts) = .ok r) ↔
      ∀ text ∈ texts, ∃ r, Range.read policy text = .ok r := by
  rw [read_intercalate policy hne]
  constructor
  · rintro ⟨r, hr⟩ text htext
    obtain ⟨ranges, hranges, -⟩ := map_eq_ok_iff.mp hr
    obtain ⟨r', -, hr'⟩ := exists_mem_of_mem_read (mapM_eq_ok_iff.mp hranges) htext
    exact ⟨r', hr'⟩
  · intro h
    obtain ⟨ranges, hranges⟩ := exists_results h
    exact ⟨_, map_eq_ok_iff.mpr ⟨ranges, mapM_eq_ok_iff.mpr hranges, rfl⟩⟩

/-- **A member of ranges with `||` between them** is a member of one of them. -/
theorem mem_iff_of_read_intercalate (hne : texts ≠ [])
    (h : Range.read policy (" || ".toList.intercalate texts) = .ok r) :
    v ∈ r ↔ ∃ text ∈ texts, ∃ r', Range.read policy text = .ok r' ∧ v ∈ r' := by
  rw [read_intercalate policy hne] at h
  obtain ⟨ranges, hranges, rfl⟩ := map_eq_ok_iff.mp h
  rw [mapM_eq_ok_iff] at hranges
  have hpolicy : ∀ r' ∈ ranges, r'.policy = policy := by
    intro r' hr'
    obtain ⟨text, -, htext⟩ := exists_mem_of_mem_results hranges hr'
    exact policy_of_read htext
  rw [mem_union_iff hpolicy]
  constructor
  · rintro ⟨r', hr', hv⟩
    obtain ⟨text, htext, hread⟩ := exists_mem_of_mem_results hranges hr'
    exact ⟨text, htext, r', hread, hv⟩
  · rintro ⟨text, htext, r', hread, hv⟩
    obtain ⟨r'', hr'', hread'⟩ := exists_mem_of_mem_read hranges htext
    obtain rfl : r' = r'' := Except.ok.inj (hread.symm.trans hread')
    exact ⟨r', hr'', hv⟩

/-! ### The pieces of a text -/

section Pieces

variable {text piece : Text}

/-- **A text is a range** if and only if each of its pieces is an arm. -/
theorem exists_read_iff_pieces : (∃ r, Range.read policy text = .ok r) ↔
    ∀ piece ∈ Text.pieces "||".toList text, ∃ arm, Arm.read policy piece = .ok arm := by
  constructor
  · rintro ⟨r, hr⟩ piece hpiece
    obtain ⟨arms, harms, -⟩ := bind_eq_ok_iff.mp hr
    obtain ⟨arm, -, harm⟩ := exists_mem_of_mem_read (mapM_eq_ok_iff.mp harms) hpiece
    exact ⟨arm, harm⟩
  · intro h
    obtain ⟨arms, harms⟩ := exists_results h
    exact ⟨_, bind_eq_ok_iff.mpr ⟨arms, mapM_eq_ok_iff.mpr harms, rfl⟩⟩

/-- **A member of a range** belongs to one of the pieces. -/
theorem mem_iff_exists_piece (h : Range.read policy text = .ok r) : v ∈ r ↔
    ∃ piece ∈ Text.pieces "||".toList text,
      ∃ arm, Arm.read policy piece = .ok arm ∧ arm.Admits policy v := by
  obtain ⟨arms, harms, hr⟩ := bind_eq_ok_iff.mp h
  obtain rfl := Except.ok.inj hr
  rw [mapM_eq_ok_iff] at harms
  constructor
  · rintro ⟨arm, harm, hv⟩
    obtain ⟨piece, hpiece, hread⟩ := exists_mem_of_mem_results harms harm
    exact ⟨piece, hpiece, arm, hread, hv⟩
  · rintro ⟨piece, hpiece, arm, hread, hv⟩
    obtain ⟨arm', harm', hread'⟩ := exists_mem_of_mem_read harms hpiece
    obtain rfl : arm = arm' := Except.ok.inj (hread.symm.trans hread')
    exact ⟨arm, harm', hv⟩

theorem mem_singleton_iff {arm : Arm} : v ∈ (⟨[arm], policy⟩ : Range) ↔ arm.Admits policy v := by
  constructor
  · rintro ⟨arm', harm', hv⟩
    obtain rfl := List.mem_singleton.mp harm'
    exact hv
  · exact fun hv => ⟨arm, List.mem_singleton_self arm, hv⟩

/-- A text without the mark is a range of one arm. -/
theorem read_of_no_mark (policy : PrereleasePolicy) (h : ¬ "||".toList <:+: text) :
    Range.read policy text = (fun arm => ⟨[arm], policy⟩) <$> Arm.read policy text := by
  rw [Range.read, (Text.pieces_eq_singleton_iff (by decide)).mpr h, List.mapM_cons]
  cases Arm.read policy text <;> rfl

/-- So is a piece, with the blanks around it or without. -/
theorem read_trim_piece (policy : PrereleasePolicy)
    (hpiece : piece ∈ Text.pieces "||".toList text) :
    Range.read policy (Text.trim piece) =
      (fun arm => ⟨[arm], policy⟩) <$> Arm.read policy piece := by
  have hpart := Text.not_infix_of_mem_pieces (by decide) hpiece
  rw [read_of_no_mark policy fun h => hpart (h.trans (Text.trim_isInfix piece)), Arm.read_trim]

end Pieces

end JuliaReleases.Range
