import JuliaReleases.Proofs.Version.Spelling
import JuliaReleases.Version.Tag

/-!
# A version has one written form

`JuliaReleases.Version.read?` accepts nothing but written forms, so it does not only undo
`JuliaReleases.Version.write`, but is undone by it: a text that is read as a version is what the
version is written as (`JuliaReleases.Version.write_of_read?`). Part by part, this is

* a numeral without leading zeros, which is rebuilt from its last digit and the number in front of
  it (`JuliaReleases.Decimal.write_value`);
* identifiers with points between them, which keep their texts when they are read;
* a mark where a cut was made (`JuliaReleases.Text.append_cut`).

A tag may have blanks around it and a `v` in front, and what remains of it is the written form of
the version that it names (`JuliaReleases.Tag.write_of_version?`).
-/

namespace JuliaReleases

/-! ### Numbers -/

namespace Decimal

/-- A digit is the digit of its own value. -/
theorem digitChar_toNat {d : Char} (h : d.isDigit = true) :
    d.toNat - '0'.toNat < 10 ∧ Nat.digitChar (d.toNat - '0'.toNat) = d := by
  have hrange : '0'.toNat ≤ d.toNat ∧ d.toNat ≤ '9'.toNat := by
    simpa [Char.isDigit, UInt32.le_iff_toNat_le] using h
  have hlow : 48 ≤ d.toNat := hrange.1
  have hhigh : d.toNat ≤ 57 := hrange.2
  have hlt : d.toNat - 48 < 10 := by omega
  refine ⟨hlt, Char.toNat_inj.mp ?_⟩
  have hdigit := Nat.toNat_digitChar_of_lt_ten hlt
  have hzero : '0'.toNat = 48 := rfl
  rw [hzero, hdigit]
  omega

/-- Digits behind a number that is not zero are appended to its written form. -/
theorem toDigits_ofDigitChars {digits : Text} (h : ∀ c ∈ digits, c.isDigit = true) {n : Nat}
    (hn : 0 < n) :
    Nat.toDigits 10 (Nat.ofDigitChars 10 digits n) = Nat.toDigits 10 n ++ digits := by
  induction digits generalizing n with
  | nil => rw [List.append_nil, Nat.ofDigitChars_nil]
  | cons d digits ih =>
    obtain ⟨hd, hdigits⟩ := List.forall_mem_cons.mp h
    obtain ⟨hlt, hchar⟩ := digitChar_toNat hd
    rw [Nat.ofDigitChars_cons, ih hdigits (by omega),
      ← Nat.toDigits_append_toDigits (by decide) hn hlt, Nat.toDigits_of_lt_base hlt, hchar,
      List.append_assoc, List.singleton_append]

/-- **A numeral without leading zeros is the written form of its value.** -/
theorem write_value {text : Text} (h : isNumeral text = true)
    (hzero : hasLeadingZero text = false) : write (value text) = text := by
  obtain ⟨d, digits, rfl⟩ : ∃ d digits, text = d :: digits :=
    List.exists_cons_of_ne_nil (by rintro rfl; exact absurd h (by decide))
  simp only [isNumeral, List.isEmpty_cons, Bool.not_false, Bool.true_and, List.all_cons,
    Bool.and_eq_true, List.all_eq_true] at h
  obtain ⟨hd, hdigits⟩ := h
  obtain ⟨hlt, hchar⟩ := digitChar_toNat hd
  have hvalue : value (d :: digits) = Nat.ofDigitChars 10 digits (d.toNat - '0'.toNat) := by
    rw [value, Nat.ofDigitChars_cons, Nat.mul_zero, Nat.zero_add]
  rw [hvalue, write]
  rcases Nat.eq_zero_or_pos (d.toNat - '0'.toNat) with hnil | hpos
  · -- A zero at the front is all there is.
    have hd : d = '0' := by
      rw [← hchar, hnil]
      rfl
    cases digits with
    | nil => rw [Nat.ofDigitChars_nil, Nat.toDigits_of_lt_base hlt, hchar]
    | cons e digits => exact absurd hzero (by simp [hd, hasLeadingZero])
  · rw [toDigits_ofDigitChars hdigits hpos, Nat.toDigits_of_lt_base hlt, hchar,
      List.singleton_append]

/-- A number that is read is written as it was. -/
theorem write_of_read? {text : Text} {n : Nat} (hzero : hasLeadingZero text = false)
    (h : read? text = some n) : write n = text := by
  obtain ⟨hnumeral, -, rfl⟩ := read?_eq_some_iff.mp h
  exact write_value hnumeral hzero

end Decimal

/-! ### Identifiers -/

theorem dotted_splitOn (text : Text) : dotted (text.splitOn '.') = text :=
  List.intercalate_splitOn '.'

theorem PreIdentifier.text_of_read {first : Bool} {segment : Text} {i : PreIdentifier}
    (h : read first segment = .ok i) : segment = i.text := by
  unfold read at h
  split at h
  · rw [← Except.ok.inj h]
  · exact absurd h (by simp)

/-- **A prerelease is written as it was read.** -/
theorem dotted_of_readPrerelease {text : Text} {pre : List PreIdentifier}
    (h : readPrerelease text = .ok pre) : pre ≠ [] ∧ dotted (pre.map (·.text)) = text := by
  unfold readPrerelease at h
  split at h
  · exact absurd h (by simp)
  · next segment segments hsplit =>
    obtain ⟨i, hi, h⟩ := bind_eq_ok_iff.mp h
    obtain ⟨is, his, h⟩ := bind_eq_ok_iff.mp h
    obtain rfl := Except.ok.inj h
    have hrest : segments.map id = is.map (·.text) :=
      map_eq_map_of_read (mapM_eq_ok_iff.mp his) fun _ _ hj => PreIdentifier.text_of_read hj
    rw [List.map_id] at hrest
    refine ⟨List.cons_ne_nil _ _, ?_⟩
    rw [List.map_cons, ← PreIdentifier.text_of_read hi, ← hrest, ← hsplit, dotted_splitOn]

theorem BuildIdentifier.text_of_read? {segment : Text} {i : BuildIdentifier}
    (h : read? segment = some i) : segment = i.text := by
  unfold read? at h
  split at h
  · rw [← Option.some.inj h]
  · exact absurd h (by simp)

theorem BuildIdentifier.map_text_of_mapM_read? {segments : List Text} {build : List BuildIdentifier}
    (h : segments.mapM read? = some build) : segments = build.map (·.text) := by
  induction segments generalizing build with
  | nil =>
    obtain rfl : [] = build := Option.some.inj h
    rfl
  | cons segment segments ih =>
    rw [List.mapM_cons] at h
    obtain ⟨i, hi, h⟩ := Option.bind_eq_some_iff.mp h
    obtain ⟨is, his, h⟩ := Option.bind_eq_some_iff.mp h
    obtain rfl := Option.some.inj h
    rw [List.map_cons, ← text_of_read? hi, ← ih his]

/-- **Build metadata is written as it was read.** -/
theorem dotted_of_readBuild? {text : Text} {build : List BuildIdentifier}
    (h : readBuild? text = some build) : build ≠ [] ∧ dotted (build.map (·.text)) = text := by
  have htexts := BuildIdentifier.map_text_of_mapM_read? h
  refine ⟨?_, by rw [← htexts, dotted_splitOn]⟩
  rintro rfl
  exact List.splitOn_ne_nil '.' text htexts

/-! ### Versions -/

namespace Version

theorem write_of_readNumber? {text : Text} {n : Nat} (h : readNumber? text = some n) :
    Decimal.write n = text := by
  unfold readNumber? at h
  split at h
  · exact absurd h (by simp)
  · next hzero => exact Decimal.write_of_read? (by simpa using hzero) h

theorem le_maxNumber_of_readNumber? {text : Text} {n : Nat} (h : readNumber? text = some n) :
    n ≤ maxNumber := by
  unfold readNumber? at h
  split at h
  · exact absurd h (by simp)
  · exact Decimal.le_maxNumber_of_read? h

/-- What `-` and a prerelease, or nothing, is read as. -/
def readPreSuffix? : Option Text → Option (List PreIdentifier)
  | none => some []
  | some pre => (readPrerelease pre).toOption

/-- What `+` and build metadata, or nothing, is read as. -/
def readBuildSuffix? : Option Text → Option (List BuildIdentifier)
  | none => some []
  | some build => readBuild? build

/-- **The parts that a version is read from.** -/
theorem exists_parts_of_read? {text : Text} {v : Version} (h : read? text = some v) :
    ∃ major minor patch,
      (Text.cut '-' (Text.cut '+' text).1).1.splitOn '.' = [major, minor, patch] ∧
      readNumber? major = some v.major ∧ readNumber? minor = some v.minor ∧
      readNumber? patch = some v.patch ∧
      readPreSuffix? (Text.cut '-' (Text.cut '+' text).1).2 = some v.pre ∧
      readBuildSuffix? (Text.cut '+' text).2 = some v.build := by
  unfold read? at h
  dsimp only at h
  split at h
  · next major minor patch hsplit =>
    refine ⟨major, minor, patch, hsplit, ?_⟩
    simp only [Option.bind_eq_bind, Option.bind_eq_some_iff] at h
    obtain ⟨a, ha, b, hb, c, hc, h⟩ := h
    revert h
    rcases (Text.cut '-' (Text.cut '+' text).1).2 with _ | pre <;>
      rcases (Text.cut '+' text).2 with _ | build <;>
      simp only [readPreSuffix?, readBuildSuffix?, Option.bind_some, Option.bind_eq_some_iff, pure,
        Option.some.injEq]
    · rintro rfl
      exact ⟨ha, hb, hc, rfl, rfl⟩
    · rintro ⟨build, hbuild, rfl⟩
      exact ⟨ha, hb, hc, rfl, hbuild⟩
    · rintro ⟨pre, hpre, rfl⟩
      exact ⟨ha, hb, hc, hpre, rfl⟩
    · rintro ⟨pre, hpre, build, hbuild, rfl⟩
      exact ⟨ha, hb, hc, hpre, hbuild⟩
  · exact absurd h (by simp)

theorem elim_of_readPreSuffix? {suffix : Option Text} {pre : List PreIdentifier}
    (h : readPreSuffix? suffix = some pre) :
    (if pre = [] then [] else '-' :: dotted (pre.map (·.text))) = suffix.elim [] ('-' :: ·) := by
  cases suffix with
  | none =>
    obtain rfl := Option.some.inj h
    rfl
  | some text =>
    have hread : readPrerelease text = .ok pre := by
      cases hresult : readPrerelease text <;> simp_all [readPreSuffix?, Except.toOption]
    obtain ⟨hne, htext⟩ := dotted_of_readPrerelease hread
    rw [if_neg hne, htext]
    rfl

theorem elim_of_readBuildSuffix? {suffix : Option Text} {build : List BuildIdentifier}
    (h : readBuildSuffix? suffix = some build) :
    (if build = [] then [] else '+' :: dotted (build.map (·.text))) =
      suffix.elim [] ('+' :: ·) := by
  cases suffix with
  | none =>
    obtain rfl := Option.some.inj h
    rfl
  | some text =>
    obtain ⟨hne, htext⟩ := dotted_of_readBuild? h
    rw [if_neg hne, htext]
    rfl

/-- **A text that is read as a version is its written form.** -/
theorem write_of_read? {text : Text} {v : Version} (h : read? text = some v) : v.write = text := by
  obtain ⟨major, minor, patch, hsplit, hmajor, hminor, hpatch, hpre, hbuild⟩ :=
    exists_parts_of_read? h
  have hnumbers : dotted [Decimal.write v.major, Decimal.write v.minor, Decimal.write v.patch] =
      (Text.cut '-' (Text.cut '+' text).1).1 := by
    rw [write_of_readNumber? hmajor, write_of_readNumber? hminor, write_of_readNumber? hpatch,
      ← hsplit, dotted_splitOn]
  rw [write, hnumbers, elim_of_readPreSuffix? hpre, elim_of_readBuildSuffix? hbuild,
    Text.append_cut, Text.append_cut]

/-- The numbers of a version that was read are not too large to be read again. -/
theorem le_maxNumber_of_read? {text : Text} {v : Version} (h : read? text = some v) :
    v.major ≤ maxNumber ∧ v.minor ≤ maxNumber ∧ v.patch ≤ maxNumber := by
  obtain ⟨major, minor, patch, -, hmajor, hminor, hpatch, -⟩ := exists_parts_of_read? h
  exact ⟨le_maxNumber_of_readNumber? hmajor, le_maxNumber_of_readNumber? hminor,
    le_maxNumber_of_readNumber? hpatch⟩

/-- A version that was read once can be written and read again. -/
theorem read?_write_of_read? {text : Text} {v : Version} (h : read? text = some v) :
    read? v.write = some v := by
  rw [write_of_read? h, h]

end Version

/-- **What a tag names** is written in the tag, behind blanks and perhaps a `v`. -/
theorem Tag.write_of_version? {tag : Text} {v : Version} (h : version? tag = some v) :
    v.write = stripPrefix (Text.trim tag) :=
  Version.write_of_read? h

end JuliaReleases
