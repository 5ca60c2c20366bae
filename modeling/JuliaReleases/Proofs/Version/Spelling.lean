import JuliaReleases.Proofs.Reading
import JuliaReleases.Proofs.Text.Cutting
import JuliaReleases.Version.Format

/-!
# Written forms are read back

A number is written without leading zeros, a prerelease with points between its identifiers, and a
version with `-` and `+` in front of its suffixes. Each of these written forms is read back, and the
reason is always the same: the mark that ends a part does not occur in it. So every printer comes
with a statement on the characters that it uses, such as
`JuliaReleases.Decimal.isDigit_of_mem_write`, and the statement that its text is read back.
-/

namespace JuliaReleases

/-! ### Numbers -/

namespace Decimal

theorem isDigit_of_mem_write {n : Nat} {c : Char} (h : c ∈ write n) : c.isDigit = true :=
  Nat.isDigit_of_mem_toDigits (by decide) (by decide) h

theorem write_ne_nil (n : Nat) : write n ≠ [] :=
  Nat.toDigits_ne_nil

theorem value_write (n : Nat) : value (write n) = n :=
  Nat.ofDigitChars_ten_toDigits

theorem write_injective : Function.Injective write := fun m n h => by
  rw [← value_write m, h, value_write]

theorem isNumeral_write (n : Nat) : isNumeral (write n) = true := by
  simp only [isNumeral, Bool.and_eq_true, Bool.not_eq_true', List.isEmpty_eq_false_iff,
    List.all_eq_true]
  exact ⟨write_ne_nil n, fun c hc => isDigit_of_mem_write hc⟩

/-- A number other than zero does not start with the digit `0`. -/
theorem head?_write_ne {n : Nat} (h : 0 < n) : (write n).head? ≠ some '0' := by
  have hdigit : ∀ d < 10, 0 < d → Nat.digitChar d ≠ '0' := by decide
  induction n using Nat.strong_induction_on with
  | _ n ih =>
    by_cases hn : n < 10
    · rw [write, Nat.toDigits_of_lt_base hn]
      exact fun hhead => hdigit n hn h (Option.some.inj hhead)
    · -- The first digit of a larger number is the first digit of its tenth part.
      rw [write, Nat.toDigits_of_base_le (by decide) (by omega), List.head?_append_of_ne_nil]
      · exact ih (n / 10) (by omega) (by omega)
      · exact write_ne_nil _

theorem hasLeadingZero_write (n : Nat) : hasLeadingZero (write n) = false := by
  rcases Nat.eq_zero_or_pos n with rfl | hn
  · rfl
  · have hhead := head?_write_ne hn
    unfold hasLeadingZero
    split
    · next hwrite =>
      rw [hwrite] at hhead
      exact absurd rfl hhead
    · rfl

theorem read?_write {n : Nat} (h : n ≤ maxNumber) : read? (write n) = some n := by
  rw [read?, if_pos ⟨isNumeral_write n, (value_write n).symm ▸ h⟩, value_write]

/-- Nothing but digits is in a numeral. -/
theorem notMem_of_isNumeral {text : Text} (h : isNumeral text = true) {c : Char}
    (hc : c.isDigit = false) : c ∉ text := by
  intro hmem
  simp only [isNumeral, Bool.and_eq_true, List.all_eq_true] at h
  exact absurd (h.2 c hmem) (by simp [hc])

end Decimal

/-! ### Identifiers -/

theorem isIdentifierChar_of_isDigit {c : Char} (h : c.isDigit = true) :
    isIdentifierChar c = true := by
  simp [isIdentifierChar, Char.isAlphanum, h]

/-- The characters of identifiers lie between `-` and `z`. -/
theorem toNat_of_isIdentifierChar {c : Char} (h : isIdentifierChar c = true) :
    45 ≤ c.toNat ∧ c.toNat ≤ 122 := by
  have hclasses : isIdentifierChar c = (decide (c.val ≥ 'A'.val ∧ c.val ≤ 'Z'.val) ||
      (decide (c.val ≥ 'a'.val) && decide (c.val ≤ 'z'.val)) ||
      (decide (c.val ≥ '0'.val) && decide (c.val ≤ '9'.val)) || c == '-') := rfl
  simp only [hclasses, Bool.or_eq_true, Bool.and_eq_true, decide_eq_true_eq, beq_iff_eq,
    ge_iff_le, UInt32.le_iff_toNat_le] at h
  rcases h with ((⟨hl, hu⟩ | ⟨hl, hu⟩) | ⟨hl, hu⟩) | rfl
  · exact ⟨le_trans (by decide) hl, le_trans hu (by decide)⟩
  · exact ⟨le_trans (by decide) hl, le_trans hu (by decide)⟩
  · exact ⟨le_trans (by decide) hl, le_trans hu (by decide)⟩
  · decide

theorem isBlank_eq_false_of_isIdentifierChar {c : Char} (h : isIdentifierChar c = true) :
    isBlank c = false := by
  obtain ⟨hl, hu⟩ := toNat_of_isIdentifierChar h
  simp only [isBlank, blankIntervals, List.any_cons, List.any_nil, Bool.or_false,
    Bool.or_eq_false_iff, Bool.and_eq_false_iff, decide_eq_false_iff_not]
  omega

/-- Dotted texts without points in them are found again. -/
theorem splitOn_dotted {ts : List Text} (hne : ts ≠ []) (h : ∀ t ∈ ts, '.' ∉ t) :
    (dotted ts).splitOn '.' = ts :=
  List.splitOn_intercalate '.' h hne

/-! ### Numbers with points between them -/

section Numbers

variable {l l' : List Nat}

theorem isDigit_of_mem_dotted_write {c : Char} (h : c ∈ dotted (l.map Decimal.write)) :
    c.isDigit = true ∨ c = '.' := by
  rcases Text.mem_intercalate h with rfl | ⟨t, ht, hc⟩
  · exact .inr rfl
  · obtain ⟨n, -, rfl⟩ := List.mem_map.mp ht
    exact .inl (Decimal.isDigit_of_mem_write hc)

theorem splitOn_dotted_write (hne : l ≠ []) :
    (dotted (l.map Decimal.write)).splitOn '.' = l.map Decimal.write := by
  refine splitOn_dotted (by simpa using hne) fun t ht hdot => ?_
  obtain ⟨n, -, rfl⟩ := List.mem_map.mp ht
  exact absurd (Decimal.isDigit_of_mem_write hdot) (by decide)

/-- The numbers are found again. -/
theorem eq_of_dotted_write_eq (hne : l ≠ []) (hne' : l' ≠ [])
    (h : dotted (l.map Decimal.write) = dotted (l'.map Decimal.write)) : l = l' := by
  have hsplit := congrArg (List.splitOn '.') h
  rw [splitOn_dotted_write hne, splitOn_dotted_write hne'] at hsplit
  exact List.map_injective_iff.mpr Decimal.write_injective hsplit

end Numbers

/-! ### Prereleases and builds -/

namespace PreIdentifier

theorem isIdentifierChar_of_mem {i : PreIdentifier} {c : Char} (h : c ∈ i.text) :
    isIdentifierChar c = true :=
  i.wellFormed.1.2 c h

theorem read_text (first : Bool) (i : PreIdentifier) : read first i.text = .ok i :=
  dif_pos i.wellFormed

end PreIdentifier

theorem isIdentifierChar_of_mem_dotted {pre : List PreIdentifier} {c : Char}
    (h : c ∈ dotted (pre.map (·.text))) : isIdentifierChar c = true ∨ c = '.' := by
  rcases Text.mem_intercalate h with rfl | ⟨t, ht, hc⟩
  · exact .inr rfl
  · obtain ⟨i, -, rfl⟩ := List.mem_map.mp ht
    exact .inl (PreIdentifier.isIdentifierChar_of_mem hc)

/-- **A prerelease is read back.** -/
theorem readPrerelease_dotted {pre : List PreIdentifier} (h : pre ≠ []) :
    readPrerelease (dotted (pre.map (·.text))) = .ok pre := by
  have hsplit : (dotted (pre.map (·.text))).splitOn '.' = pre.map (·.text) := by
    refine splitOn_dotted (by simpa using h) fun t ht hdot => ?_
    obtain ⟨i, -, rfl⟩ := List.mem_map.mp ht
    exact absurd (PreIdentifier.isIdentifierChar_of_mem hdot) (by decide)
  obtain ⟨i, is, rfl⟩ := List.exists_cons_of_ne_nil h
  have hread : (is.map (·.text)).mapM (PreIdentifier.read false) = .ok is := by
    rw [mapM_eq_ok_iff, List.map_map]
    exact List.map_congr_left fun j _ => PreIdentifier.read_text false j
  rw [readPrerelease, hsplit, List.map_cons]
  simp only [PreIdentifier.read_text, hread]
  rfl

namespace BuildIdentifier

theorem isIdentifierChar_of_mem {i : BuildIdentifier} {c : Char} (h : c ∈ i.text) :
    isIdentifierChar c = true :=
  i.wellFormed.2 c h

theorem read?_text (i : BuildIdentifier) : read? i.text = some i :=
  dif_pos i.wellFormed

end BuildIdentifier

/-- **Build metadata is read back.** -/
theorem readBuild?_dotted {build : List BuildIdentifier} (h : build ≠ []) :
    readBuild? (dotted (build.map (·.text))) = some build := by
  have hsplit : (dotted (build.map (·.text))).splitOn '.' = build.map (·.text) := by
    refine splitOn_dotted (by simpa using h) fun t ht hdot => ?_
    obtain ⟨i, -, rfl⟩ := List.mem_map.mp ht
    exact absurd (BuildIdentifier.isIdentifierChar_of_mem hdot) (by decide)
  rw [readBuild?, hsplit, List.mapM_map]
  have hread : BuildIdentifier.read? ∘ (·.text) = pure := funext BuildIdentifier.read?_text
  rw [hread, List.mapM_pure, List.map_id']
  rfl

/-! ### Versions -/

namespace Version

/-- The numbers of a version as they are written. -/
def numbersText (v : Version) : Text :=
  dotted [Decimal.write v.major, Decimal.write v.minor, Decimal.write v.patch]

/-- The written form of a version up to the build metadata. -/
def coreText (v : Version) : Text :=
  v.numbersText ++ if v.pre = [] then [] else '-' :: dotted (v.pre.map (·.text))

theorem isDigit_of_mem_numbersText {v : Version} {c : Char} (h : c ∈ v.numbersText) :
    c.isDigit = true ∨ c = '.' :=
  isDigit_of_mem_dotted_write (l := [v.major, v.minor, v.patch]) h

theorem isIdentifierChar_of_mem_coreText {v : Version} {c : Char} (h : c ∈ v.coreText) :
    isIdentifierChar c = true ∨ c = '.' := by
  rw [coreText, List.mem_append] at h
  rcases h with h | h
  · exact (isDigit_of_mem_numbersText h).imp_left isIdentifierChar_of_isDigit
  · split at h
    · exact absurd h (by simp)
    · rcases List.mem_cons.mp h with rfl | h
      · exact .inl (by decide)
      · exact isIdentifierChar_of_mem_dotted h

/-- The first `-` of a written version starts its prerelease. -/
theorem cut_coreText (v : Version) : Text.cut '-' v.coreText =
    (v.numbersText, if v.pre = [] then none else some (dotted (v.pre.map (·.text)))) := by
  have hnot : '-' ∉ v.numbersText := fun h => by
    rcases isDigit_of_mem_numbersText h with h | h <;> exact absurd h (by decide)
  unfold coreText
  split
  · rw [List.append_nil, Text.cut_of_not_mem hnot]
  · exact Text.cut_append_cons hnot _

theorem splitOn_numbersText (v : Version) : v.numbersText.splitOn '.' =
    [Decimal.write v.major, Decimal.write v.minor, Decimal.write v.patch] :=
  splitOn_dotted_write (l := [v.major, v.minor, v.patch]) (List.cons_ne_nil _ _)

/-- A written version starts with a digit. -/
theorem exists_coreText_eq_cons (v : Version) :
    ∃ c rest, v.coreText = c :: rest ∧ c.isDigit = true := by
  obtain ⟨c, rest, hwrite⟩ := List.exists_cons_of_ne_nil (Decimal.write_ne_nil v.major)
  have hc : c.isDigit = true :=
    Decimal.isDigit_of_mem_write (hwrite ▸ List.mem_cons_self)
  rw [coreText, numbersText, dotted, hwrite, List.intercalate_cons_cons]
  exact ⟨c, _, rfl, hc⟩

theorem write_eq_coreText_append (v : Version) : v.write =
    v.coreText ++ if v.build = [] then [] else '+' :: dotted (v.build.map (·.text)) :=
  rfl

/-- The first `+` of a written version starts its build metadata. -/
theorem cut_write (v : Version) : Text.cut '+' v.write =
    (v.coreText, if v.build = [] then none else some (dotted (v.build.map (·.text)))) := by
  have hnot : '+' ∉ v.coreText := fun h => by
    rcases isIdentifierChar_of_mem_coreText h with h | h <;> exact absurd h (by decide)
  rw [write_eq_coreText_append]
  split
  · rw [List.append_nil, Text.cut_of_not_mem hnot]
  · exact Text.cut_append_cons hnot _

theorem exists_write_eq_cons (v : Version) : ∃ c rest, v.write = c :: rest ∧ c.isDigit = true := by
  obtain ⟨c, rest, hcore, hc⟩ := v.exists_coreText_eq_cons
  rw [write_eq_coreText_append, hcore, List.cons_append]
  exact ⟨c, _, rfl, hc⟩

theorem isIdentifierChar_of_mem_write {v : Version} {c : Char} (h : c ∈ v.write) :
    isIdentifierChar c = true ∨ c = '.' ∨ c = '+' := by
  rw [write_eq_coreText_append, List.mem_append] at h
  rcases h with h | h
  · exact (isIdentifierChar_of_mem_coreText h).imp_right .inl
  · split at h
    · exact absurd h (by simp)
    · rcases List.mem_cons.mp h with rfl | h
      · exact .inr (.inr rfl)
      · rcases Text.mem_intercalate h with rfl | ⟨t, ht, hc⟩
        · exact .inr (.inl rfl)
        · obtain ⟨i, -, rfl⟩ := List.mem_map.mp ht
          exact .inl (BuildIdentifier.isIdentifierChar_of_mem hc)

/-- There are no blanks in a written version. -/
theorem isWord_write (v : Version) : Text.IsWord v.write := by
  refine ⟨?_, fun c hc => ?_⟩
  · obtain ⟨d, rest, hwrite, -⟩ := v.exists_write_eq_cons
    rw [hwrite]
    exact List.cons_ne_nil d rest
  · rcases isIdentifierChar_of_mem_write hc with hc | rfl | rfl
    · exact isBlank_eq_false_of_isIdentifierChar hc
    · rfl
    · rfl

/-- **A written version is read back**, if its numbers are not too large to be read. -/
theorem read?_write {v : Version} (hmajor : v.major ≤ maxNumber) (hminor : v.minor ≤ maxNumber)
    (hpatch : v.patch ≤ maxNumber) : read? v.write = some v := by
  have hnumber : ∀ {n : Nat}, n ≤ maxNumber → readNumber? (Decimal.write n) = some n := by
    intro n hn
    rw [readNumber?, Decimal.hasLeadingZero_write, Decimal.read?_write hn]
    rfl
  have hpre : v.pre ≠ [] → (readPrerelease (dotted (v.pre.map (·.text)))).toOption = some v.pre :=
    fun h => congrArg Except.toOption (readPrerelease_dotted h)
  rw [read?, cut_write]
  simp only [cut_coreText, splitOn_numbersText, hnumber hmajor, hnumber hminor, hnumber hpatch]
  -- A suffix is there or not, and what is there is read back.
  obtain ⟨a, b, c, pre, build⟩ := v
  by_cases hp : pre = [] <;> by_cases hb : build = [] <;>
    simp [hp, hb, hpre, readBuild?_dotted]

end Version

end JuliaReleases
