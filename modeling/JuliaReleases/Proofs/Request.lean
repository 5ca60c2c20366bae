import JuliaReleases.Proofs.Version.Tag

/-!
# Which texts are which requests

`JuliaReleases.Request.read` tries the kinds of requests one after the other. The order hardly
matters, since a version in full starts with a digit
(`JuliaReleases.Tag.exists_digit_of_isConcrete`) and the words do not end like the name of a nightly
build. So each kind has its texts, and one lemma here says which they are, apart from the blanks
around them:

* a version in full, perhaps behind a `v` (`JuliaReleases.Request.read_eq_exact_iff`);
* the name of a nightly build, which ends in the word for it and is no version
  (`JuliaReleases.Request.read_eq_nightly_iff`);
* the word `min`, in capitals or not (`JuliaReleases.Request.read_eq_min_iff`);
* the words `lts` and `pre`, without capitals (`JuliaReleases.Request.read_eq_lts_iff` and
  `JuliaReleases.Request.read_eq_pre_iff`);
* everything else is a range (`JuliaReleases.Request.read_eq_range_iff`).
-/

namespace JuliaReleases

variable {request text version : Text}

/-- A version in full starts with a digit, perhaps behind a `v`. -/
theorem Tag.exists_digit_of_isConcrete (h : IsConcrete text) :
    ∃ c rest, stripPrefix text = c :: rest ∧ c.isDigit = true := by
  obtain ⟨v, hv⟩ := Option.isSome_iff_exists.mp h
  obtain ⟨c, rest, hwrite, hc⟩ := v.exists_write_eq_cons
  exact ⟨c, rest, (Version.write_of_read? hv).symm.trans hwrite, hc⟩

/-- A text that starts with a letter other than `v` is no version in full. -/
theorem Tag.not_isConcrete_cons {c : Char} {rest : Text} (hletter : c ≠ 'v')
    (hdigit : c.isDigit = false) : ¬ IsConcrete (c :: rest) := by
  intro h
  obtain ⟨d, more, hstrip, hd⟩ := exists_digit_of_isConcrete h
  obtain ⟨rfl, -⟩ := List.cons.inj ((stripPrefix_cons hletter rest).symm.trans hstrip)
  exact absurd (hdigit.symm.trans hd) (by simp)

/-- A text is no name of a nightly build if it is shorter than the word. -/
theorem Nightly.not_isName_of_length_lt (h : text.length < word.length) : ¬ IsName text :=
  fun hname => absurd hname.length_le (not_le.mpr h)

namespace Request

/-- **A request names a version in full** if it could be a tag of the version. -/
theorem read_eq_exact_iff : read request = .exact version ↔
    ∃ v, Tag.version? request = some v ∧ v.write = version := by
  constructor
  · intro h
    unfold read at h
    dsimp only at h
    split at h
    · next hconcrete =>
      obtain ⟨v, hv⟩ := Option.isSome_iff_exists.mp hconcrete
      exact ⟨v, hv, (Tag.write_of_version? hv).trans (exact.inj h)⟩
    · split_ifs at h
  · rintro ⟨v, hv, rfl⟩
    have hconcrete : Tag.IsConcrete (Text.trim request) := Option.isSome_of_eq_some hv
    rw [read, if_pos hconcrete, Tag.write_of_version? hv]

/-- What counts as a nightly build is no version in full, and ends in the right word. -/
theorem read_eq_nightly_iff : read request = .nightly text ↔
    Text.trim request = text ∧ ¬ Tag.IsConcrete text ∧ Nightly.IsName text := by
  unfold read
  dsimp only
  constructor
  · intro h
    split_ifs at h with hconcrete hnightly
    obtain rfl := nightly.inj h
    exact ⟨rfl, hconcrete, hnightly⟩
  · rintro ⟨rfl, hconcrete, hnightly⟩
    rw [if_neg hconcrete, if_pos hnightly]

/-- **A range is what is nothing else.** -/
theorem read_eq_range_iff : read request = .range text ↔
    Text.trim request = text ∧ ¬ Tag.IsConcrete text ∧ ¬ Nightly.IsName text ∧
      Text.asciiLowercase text ≠ "min".toList ∧ text ≠ "lts".toList ∧ text ≠ "pre".toList := by
  unfold read
  dsimp only
  constructor
  · intro h
    split_ifs at h with hconcrete hnightly hmin hlts hpre
    obtain rfl := range.inj h
    exact ⟨rfl, hconcrete, hnightly, hmin, hlts, hpre⟩
  · rintro ⟨rfl, hconcrete, hnightly, hmin, hlts, hpre⟩
    rw [if_neg hconcrete, if_neg hnightly, if_neg hmin, if_neg hlts, if_neg hpre]

/-! ### Words -/

/-- A digit is no capital. -/
theorem toLower_of_isDigit {c : Char} (h : c.isDigit = true) : c.toLower = c := by
  have hle : c.toNat ≤ 57 := (Char.isDigit_iff_toNat.mp h).2
  refine dif_neg fun hcapital => ?_
  have hge : 65 ≤ c.toNat := UInt32.le_iff_toNat_le.mp hcapital.1
  omega

/-- **The least release is asked for** by the word `min`, in capitals or not. -/
theorem read_eq_min_iff :
    read request = .min ↔ Text.asciiLowercase (Text.trim request) = "min".toList := by
  unfold read
  dsimp only
  constructor
  · intro h
    split_ifs at h with hconcrete hnightly hmin
    exact hmin
  · intro hmin
    have hlength : (Text.trim request).length = 3 := by
      simpa [Text.asciiLowercase] using congrArg List.length hmin
    obtain ⟨c, rest, htext, hc, -⟩ := List.map_eq_cons_iff.mp hmin
    have hletter : c ≠ 'v' := by
      rintro rfl
      exact absurd hc (by decide)
    have hdigit : c.isDigit = false := by
      by_contra h
      have hdigit := eq_true_of_ne_false h
      rw [toLower_of_isDigit hdigit] at hc
      exact absurd (hc ▸ hdigit) (by decide)
    have hconcrete : ¬ Tag.IsConcrete (Text.trim request) := by
      rw [htext]
      exact Tag.not_isConcrete_cons hletter hdigit
    have hnightly : ¬ Nightly.IsName (Text.trim request) :=
      Nightly.not_isName_of_length_lt (hlength ▸ by decide)
    rw [if_neg hconcrete, if_neg hnightly, if_pos hmin]

/-- **The line with long-term support** has one word, without capitals. -/
theorem read_eq_lts_iff : read request = .lts ↔ Text.trim request = "lts".toList := by
  unfold read
  dsimp only
  constructor
  · intro h
    split_ifs at h with hconcrete hnightly hmin hlts
    exact hlts
  · intro hlts
    rw [hlts]
    rfl

/-- So has the newest version, prereleases included. -/
theorem read_eq_pre_iff : read request = .pre ↔ Text.trim request = "pre".toList := by
  unfold read
  dsimp only
  constructor
  · intro h
    split_ifs at h with hconcrete hnightly hmin hlts hpre
    exact hpre
  · intro hpre
    rw [hpre]
    rfl

end Request

end JuliaReleases
