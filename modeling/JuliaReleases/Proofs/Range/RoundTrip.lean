import JuliaReleases.CommandLine.Run
import JuliaReleases.Proofs.Range.Union
import JuliaReleases.Proofs.Version.Spelling

/-!
# Printed ranges are read back

Reading a range replaces every operator by plain bounds, so the printed range looks different from
the text that was read. But it is a **fixed point**: reading it gives the same range again, bound by
bound. The bounds of a range that was read are `JuliaReleases.Comparator.Plain`, and for these

* a printed bound is one word, an operator and a full version, and it is read as one term
  (`JuliaReleases.Comparator.read_write`). Behind a plain operator a full version is meant
  literally, so nothing is lowered a second time
  (`JuliaReleases.PartialVersion.bounds_operator_full`);
* the words of an arm stay apart, and no `-` follows a blank, so an arm is never taken for a hyphen
  range (`JuliaReleases.Arm.readTerms_write`);
* the arms of a range stay apart, as ranges with `||` between them do
  (`JuliaReleases.Range.read_write_of_plain`).

Together this is `JuliaReleases.read_write_range`.
-/

namespace JuliaReleases

/-! ### Written versions -/

namespace PartialVersion

theorem readComponent_write {n : Nat} (h : n ≤ maxNumber) :
    readComponent (Decimal.write n) = .ok (some n) := by
  have hwildcard : ∀ c : Char, c.isDigit = false → Decimal.write n ≠ [c] := fun c hc hwrite => by
    rw [Decimal.isDigit_of_mem_write (hwrite ▸ List.mem_singleton_self c)] at hc
    exact absurd hc (by simp)
  rw [readComponent, if_neg, if_neg, if_neg, Decimal.read?_write h]
  · simp [Decimal.hasLeadingZero_write]
  · simp [Decimal.isNumeral_write]
  · rintro (hx | hx | hx) <;> exact hwildcard _ (by decide) hx

/-- A written prerelease is read back; a version without one is left alone. -/
theorem withPrerelease_dotted (text : Text) (a b c : Nat) (pre : List PreIdentifier) :
    withPrerelease text (if pre = [] then none else some (dotted (pre.map (·.text))))
      (.full a b c []) = .ok (.full a b c pre) := by
  by_cases h : pre = []
  · rw [if_pos h, h]
    rfl
  · have hread := readPrerelease_dotted h
    have hnil : readPrerelease [] = .error .emptySegment := rfl
    rw [if_neg h]
    cases hdotted : dotted (pre.map (·.text)) with
    | nil => exact absurd (hnil.symm.trans (hdotted ▸ hread)) (by simp)
    | cons c rest =>
      rw [hdotted] at hread
      simp only [withPrerelease, hread]

/-- **A written version is read as the full version that it is.** -/
theorem read_coreText {v : Version} (hmajor : v.major ≤ maxNumber) (hminor : v.minor ≤ maxNumber)
    (hpatch : v.patch ≤ maxNumber) :
    read v.coreText = .ok (.full v.major v.minor v.patch v.pre) := by
  obtain ⟨c, rest, htext, hc⟩ := v.exists_coreText_eq_cons
  have hne : v.coreText ≠ [] := by
    rw [htext]
    exact List.cons_ne_nil c rest
  have hstrip : Tag.stripPrefix v.coreText = v.coreText := by
    rw [htext]
    refine Tag.stripPrefix_cons ?_ rest
    rintro rfl
    exact absurd hc (by decide)
  have hbuild : Text.cut '+' v.coreText = (v.coreText, none) := by
    refine Text.cut_of_not_mem fun h => ?_
    rcases Version.isIdentifierChar_of_mem_coreText h with h | h <;> exact absurd h (by decide)
  have hcomponents : [Decimal.write v.major, Decimal.write v.minor, Decimal.write v.patch].mapM
      readComponent = .ok [some v.major, some v.minor, some v.patch] := by
    rw [mapM_eq_ok_iff]
    simp [readComponent_write, hmajor, hminor, hpatch]
  rw [read, hstrip]
  simp only [if_neg hne, hbuild, Version.cut_coreText, Version.splitOn_numbersText, hcomponents]
  exact withPrerelease_dotted v.coreText v.major v.minor v.patch v.pre

end PartialVersion

/-! ### Bounds -/

/-- The operator that a relation is written as. -/
def Relation.operator : Relation → Operator
  | .eq => .eq
  | .gt => .gt
  | .ge => .ge
  | .lt => .lt
  | .le => .le

theorem Relation.write_eq (r : Relation) : r.write = r.operator.write := by
  cases r <;> rfl

/-- A full version behind an operator that is a relation is meant literally, whatever the policy. -/
theorem PartialVersion.bounds_operator_full (policy : PrereleasePolicy) (r : Relation) (a b c : Nat)
    (pre : List PreIdentifier) : (full a b c pre).bounds policy r.operator =
      [⟨r, { major := a, minor := b, patch := c, pre }⟩] := by
  cases r <;> rfl

namespace Comparator

/-- What every bound of a range that was read is: it has no build metadata, and numbers that can be
written. -/
structure Plain (c : Comparator) : Prop where
  build : c.version.build = []
  major : c.version.major ≤ maxNumber
  minor : c.version.minor ≤ maxNumber
  patch : c.version.patch ≤ maxNumber

theorem plain_of_bound {policy : PrereleasePolicy} {p : PartialVersion} {c : Comparator}
    (hp : ∀ n ∈ p.components, n ≤ maxNumber) (h : p.Bound policy c) : c.Plain := by
  cases h with
  | written hfull =>
    subst hfull
    simp only [PartialVersion.components, List.forall_mem_cons] at hp
    exact ⟨rfl, hp.1, hp.2.1, hp.2.2.1⟩
  | lower ha hb hc => cases policy <;> exact ⟨rfl, ha, hb, hc⟩
  | upper ha hb hc => exact ⟨rfl, ha, hb, hc⟩

/-- The term that a bound is written as. -/
def term (c : Comparator) : Term where
  role := .operand c.relation.operator
  version := .full c.version.major c.version.minor c.version.patch c.version.pre

variable {c : Comparator} (h : c.Plain)
include h

theorem write_eq : c.write = c.relation.operator.write ++ c.version.coreText := by
  rw [Comparator.write, Relation.write_eq, Version.write, h.build]
  simp [Version.coreText, Version.numbersText]

theorem bounds_term (policy : PrereleasePolicy) : c.term.bounds policy = [c] := by
  obtain ⟨r, a, b, c, pre, build⟩ := c
  obtain rfl : build = [] := h.build
  exact PartialVersion.bounds_operator_full policy r a b c pre

/-- **A printed bound is read as its term.** -/
theorem read_write : Term.read c.write = .ok c.term := by
  rw [write_eq h]
  exact Term.read_append_of_read (PartialVersion.read_coreText h.major h.minor h.patch) _

/-- A printed bound is no lone operator. -/
theorem read?_write : Operator.read? c.write = none := by
  rw [write_eq h]
  exact PartialVersion.read?_append_of_read
    (PartialVersion.read_coreText h.major h.minor h.patch) _

/-- The characters of a printed bound. -/
theorem mem_write {d : Char} (hd : d ∈ c.write) :
    d ∈ Operator.starts ∨ isIdentifierChar d = true ∨ d = '.' := by
  rw [write_eq h, List.mem_append] at hd
  rcases hd with hd | hd
  · exact .inl (Operator.mem_starts_of_mem_write hd)
  · exact .inr (Version.isIdentifierChar_of_mem_coreText hd)

theorem isWord_write : Text.IsWord c.write := by
  refine ⟨fun hnil => ?_, fun e he => ?_⟩
  · rw [write_eq h] at hnil
    exact Operator.write_ne_nil _ (List.append_eq_nil_iff.mp hnil).1
  · rcases mem_write h he with he | he | rfl
    · exact Operator.isBlank_eq_false_of_mem_starts he
    · exact isBlank_eq_false_of_isIdentifierChar he
    · rfl

/-- A printed bound does not start with a hyphen. -/
theorem exists_write_eq_cons : ∃ d rest, c.write = d :: rest ∧ d ≠ '-' := by
  rw [write_eq h]
  cases c.relation <;> exact ⟨_, _, rfl, by decide⟩

end Comparator

/-! ### Arms -/

namespace Arm

variable {arm : Arm}

/-- The printed bounds of an arm. -/
theorem write_of_ne_nil (hne : arm.comparators ≠ []) :
    arm.write = [' '].intercalate (arm.comparators.map Comparator.write) := by
  obtain ⟨_ | ⟨c, cs⟩⟩ := arm
  · exact absurd rfl hne
  · rfl

/-- **The terms of a printed arm** are its bounds; without bounds, a wildcard is printed. -/
theorem readTerms_write (h : ∀ c ∈ arm.comparators, c.Plain) : readTerms arm.write =
    .ok (if arm.comparators = [] then [⟨.operand .eq, .wildcard⟩]
      else arm.comparators.map Comparator.term) := by
  by_cases hne : arm.comparators = []
  · obtain rfl : arm = ⟨[]⟩ := by cases arm; exact congrArg _ hne
    rfl
  · rw [if_neg hne]
    have hwords : ∀ w ∈ arm.comparators.map Comparator.write, Text.IsWord w := by
      intro w hw
      obtain ⟨c, hc, rfl⟩ := List.mem_map.mp hw
      exact Comparator.isWord_write (h c hc)
    have hoperator : ∀ w ∈ arm.comparators.map Comparator.write, Operator.read? w = none := by
      intro w hw
      obtain ⟨c, hc, rfl⟩ := List.mem_map.mp hw
      exact Comparator.read?_write (h c hc)
    -- What follows a blank is an operator and no hyphen, so this is no hyphen range.
    have hpieces : Text.pieces " - ".toList arm.write = [arm.write] := by
      rw [write_of_ne_nil hne]
      refine Text.pieces_intercalate (by simpa using hne) fun w hw => ⟨fun hmem => ?_, ?_⟩
      · exact Text.space_notMem_of_isWord (hwords w hw) hmem
      · obtain ⟨c, hc, rfl⟩ := List.mem_map.mp hw
        exact Comparator.exists_write_eq_cons (h c hc)
    have hfound : Text.words arm.write = arm.comparators.map Comparator.write := by
      rw [write_of_ne_nil hne, Text.words_intercalate hwords]
    have htrim : Text.trim arm.write = arm.write := by
      rw [write_of_ne_nil hne, Text.trim_intercalate hwords]
    rw [readTerms_eq_mapM htrim hpieces (hfound.symm ▸ hoperator), hfound, mapM_eq_ok_iff,
      List.map_map, List.map_map]
    exact List.map_congr_left fun c hc => Comparator.read_write (h c hc)

/-- **A printed arm is read back.** -/
theorem read_write (policy : PrereleasePolicy) (h : ∀ c ∈ arm.comparators, c.Plain) :
    Arm.read policy arm.write = .ok arm := by
  rw [Arm.read_eq, readTerms_write h]
  refine congrArg Except.ok ?_
  show ofTerms policy _ = arm
  obtain ⟨comparators⟩ := arm
  by_cases hne : comparators = []
  · subst hne
    rfl
  · rw [ofTerms, if_neg hne, List.flatMap_map]
    refine congrArg Arm.mk ?_
    rw [List.flatMap_congr fun c hc => Comparator.bounds_term (h c hc) policy]
    exact List.flatMap_singleton' _

/-- No separator of arms starts within a printed arm. -/
theorem bar_notMem_write (h : ∀ c ∈ arm.comparators, c.Plain) : '|' ∉ arm.write := by
  by_cases hne : arm.comparators = []
  · rw [Arm.write, hne]
    decide
  · rw [write_of_ne_nil hne]
    intro hmem
    rcases Text.mem_intercalate hmem with hbar | ⟨w, hw, hmem⟩
    · exact absurd hbar (by decide)
    · obtain ⟨c, hc, rfl⟩ := List.mem_map.mp hw
      rcases Comparator.mem_write (h c hc) hmem with hbar | hbar | hbar <;>
        exact absurd hbar (by decide)

end Arm

/-! ### Ranges -/

namespace Range

variable {policy : PrereleasePolicy} {text : Text} {r : Range}

/-- A range that was read has an arm, its bounds are plain, and it keeps the policy. -/
theorem plain_of_read (h : Range.read policy text = .ok r) : r.policy = policy ∧ r.arms ≠ [] ∧
    ∀ arm ∈ r.arms, ∀ c ∈ arm.comparators, c.Plain := by
  obtain ⟨arms, harms, hr⟩ := bind_eq_ok_iff.mp h
  obtain rfl := Except.ok.inj hr
  have hread := mapM_eq_ok_iff.mp harms
  refine ⟨rfl, fun hnil => ?_, fun arm harm c hc => ?_⟩
  · obtain rfl : arms = [] := hnil
    exact Text.pieces_ne_nil _ text (List.map_eq_nil_iff.mp hread)
  · obtain ⟨piece, -, hpiece⟩ := exists_mem_of_mem_results hread harm
    rw [Arm.read_eq] at hpiece
    obtain ⟨terms, hterms, rfl⟩ := map_eq_ok_iff.mp hpiece
    obtain ⟨t, ht, hbound⟩ := List.mem_flatMap.mp hc
    have hnumbers := Arm.le_maxNumber_of_readTerms hterms ht
    exact Comparator.plain_of_bound hnumbers (Term.bound_of_mem_bounds hnumbers hbound)

/-- A printed arm is a range of its own. -/
theorem read_write_arm (policy : PrereleasePolicy) {arm : Arm}
    (h : ∀ c ∈ arm.comparators, c.Plain) : Range.read policy arm.write = .ok ⟨[arm], policy⟩ := by
  have hpieces : Text.pieces "||".toList arm.write = [arm.write] :=
    Text.pieces_of_not_mem List.mem_cons_self (Arm.bar_notMem_write h)
  rw [Range.read, hpieces, List.mapM_cons, Arm.read_write policy h]
  rfl

/-- A printed range is read back, arm by arm. -/
theorem read_write_of_plain (hne : r.arms ≠ [])
    (h : ∀ arm ∈ r.arms, ∀ c ∈ arm.comparators, c.Plain) : Range.read r.policy r.write = .ok r := by
  have hread : (r.arms.map Arm.write).mapM (Range.read r.policy) =
      .ok (r.arms.map fun arm => ⟨[arm], r.policy⟩) := by
    rw [mapM_eq_ok_iff, List.map_map, List.map_map]
    exact List.map_congr_left fun arm harm => read_write_arm r.policy (h arm harm)
  have hunion : union r.policy (r.arms.map fun arm => ⟨[arm], r.policy⟩) = r := by
    rw [union, List.flatMap_map, List.flatMap_singleton']
  rw [Range.write, read_intercalate r.policy (by simpa using hne), hread]
  exact congrArg Except.ok hunion

end Range

open CommandLine in
/-- **A printed range is read back**: whatever text a range was read from, the range that is printed
is read as the same range, bound by bound. So what the command prints as plain bounds is a range
with the meaning of the specifier. -/
theorem read_write_range :
    (∀ (policy : PrereleasePolicy) (text : Text) (r : Range), Range.read policy text = .ok r →
      Range.read policy r.write = .ok r) ∧
    (∀ specifier output : Text, runTranslate specifier true = .ok output →
      ∃ c r, CompatRange.ofSpecifier specifier = .ok c ∧ c.range = .ok r ∧
        Range.read .named output = .ok r) := by
  have hread : ∀ {policy : PrereleasePolicy} {text : Text} {r : Range},
      Range.read policy text = .ok r → Range.read policy r.write = .ok r := by
    intro policy text r h
    obtain ⟨rfl, hne, hplain⟩ := Range.plain_of_read h
    exact Range.read_write_of_plain hne hplain
  refine ⟨fun policy text r => hread, ?_⟩
  intro specifier output h
  obtain ⟨c, hc, hprint⟩ := bind_eq_ok_iff.mp h
  rw [if_pos rfl] at hprint
  obtain ⟨r, hr, rfl⟩ := map_eq_ok_iff.mp hprint
  have hrange : c.range = .ok r := mapError_eq_ok_iff.mp hr
  exact ⟨c, r, mapError_eq_ok_iff.mp hc, hrange, hread (mapError_eq_ok_iff.mp hrange)⟩

open CommandLine in
/-- Two arms, of which one is printed as `*`, and a hyphen range given to the command. -/
theorem read_write_range_caret :
    (∃ r, Range.read .included "^1.6||*".toList = .ok r ∧
      Range.read .included r.write = .ok r) ∧
    ∃ output, runTranslate "0.5 - 1".toList true = .ok output ∧
      ∃ c r, CompatRange.ofSpecifier "0.5 - 1".toList = .ok c ∧ c.range = .ok r ∧
        Range.read .named output = .ok r :=
  ⟨⟨_, rfl, read_write_range.1 .included "^1.6||*".toList _ rfl⟩,
    ">=0.5.0 <2.0.0-0".toList, rfl, read_write_range.2 "0.5 - 1".toList _ rfl⟩

end JuliaReleases
