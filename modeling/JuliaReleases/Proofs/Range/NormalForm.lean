import JuliaReleases.Proofs.Range.BuildMetadata

/-!
# What bounds look like

The bounds of a range are made of partial versions, and both have less freedom than their fields
suggest.

A partial version has three numbers and a prerelease. If each of them could be given or left open on
its own (`JuliaReleases.PartialVersion.Fields`), most combinations would make no sense. Those that
do are in **normal form**, and by `JuliaReleases.PartialVersion.Fields.isNormal_iff` they are the
partial versions and no others. Which one a text gives is said by
`JuliaReleases.PartialVersion.fields_of_read`: the numbers in front of the first wildcard.

A bound is in normal form (`JuliaReleases.Comparator.IsNormal`) if it has no build metadata and if
its prerelease is one that is **written** in its arm (`JuliaReleases.Arm.Writes`), or else the
lowest one, `-0`. Every bound of a term has one of the three shapes of
`JuliaReleases.PartialVersion.Bound`, and each of them is in normal form, so the bounds of an arm
are (`JuliaReleases.Arm.isNormal_of_read`).
-/

namespace JuliaReleases

/-! ### Partial versions -/

namespace PartialVersion

/-- Three numbers, each of them given or left open, and perhaps a prerelease. -/
structure Fields where
  major : Option Nat
  minor : Option Nat
  patch : Option Nat
  pre : List PreIdentifier

/-- **The normal form of a partial version**: nothing is given behind a number that is left open. -/
structure Fields.IsNormal (f : Fields) : Prop where
  major_of_minor : f.minor.isSome → f.major.isSome
  minor_of_patch : f.patch.isSome → f.minor.isSome
  full_of_pre : f.pre ≠ [] → f.major.isSome ∧ f.minor.isSome ∧ f.patch.isSome

/-- The numbers that stand in front of the first wildcard, and a prerelease. -/
def Fields.ofValues (values : List (Option Nat)) (pre : List PreIdentifier) : Fields :=
  let given := values.takeWhile Option.isSome
  { major := given[0]?.join, minor := given[1]?.join, patch := given[2]?.join, pre }

/-- What is given of a partial version. -/
def fields (p : PartialVersion) : Fields where
  major := p.components[0]?
  minor := p.components[1]?
  patch := p.components[2]?
  pre := p.pre

/-- **The partial versions are the normal forms.** -/
theorem Fields.isNormal_iff {f : Fields} : f.IsNormal ↔ ∃ p : PartialVersion, p.fields = f := by
  constructor
  · obtain ⟨major, minor, patch, pre⟩ := f
    rintro ⟨hmajor, hminor, hpre⟩
    -- Of the eight ways to leave numbers open, four have nothing behind an open one.
    rcases major with _ | a <;> rcases minor with _ | b <;> rcases patch with _ | c <;>
      simp only [Option.isSome_none, Option.isSome_some, reduceCtorEq, imp_false, not_true,
        and_false, and_self, not_not, forall_const, imp_true_iff] at hmajor hminor hpre
    · exact ⟨wildcard, by rw [hpre]; rfl⟩
    · exact ⟨PartialVersion.major a, by rw [hpre]; rfl⟩
    · exact ⟨PartialVersion.minor a b, by rw [hpre]; rfl⟩
    · exact ⟨full a b c pre, rfl⟩
  · rintro ⟨p, rfl⟩
    cases p <;> constructor <;> simp [fields, components, PartialVersion.pre]

variable {text : Text} {p q : PartialVersion} {values : List (Option Nat)}

/-- The components of a version as they are written, and its prerelease if there is one. -/
def parts (text : Text) : List Text × Option Text :=
  let (numbers, pre) := Text.cut '-' (Text.cut '+' (Tag.stripPrefix text)).1
  (numbers.splitOn '.', pre)

theorem fields_eq_of_components (h : p.components = q.components) :
    p.fields = { q.fields with pre := p.pre } := by
  simp [fields, h]

theorem fields_ofComponents (values : List (Option Nat)) :
    (ofComponents values).fields = .ofValues values [] := by
  rcases values with _ | ⟨_ | a, _ | ⟨_ | b, _ | ⟨_ | c, values⟩⟩⟩ <;> rfl

theorem pre_of_withPrerelease {version : Text} {pre : Option Text}
    (h : withPrerelease version pre (ofComponents values) = .ok p) : p.pre ≠ [] ↔ pre.isSome := by
  cases pre with
  | none =>
    obtain rfl : ofComponents values = p := Except.ok.inj h
    have hpre : (ofComponents values).pre = [] := congrArg Fields.pre (fields_ofComponents values)
    simp [hpre]
  | some pre =>
    obtain ⟨a, b, c, old, identifiers, -, hread, rfl⟩ := withPrerelease_some_eq_ok h
    exact iff_of_true (dotted_of_readPrerelease hread).1 rfl

/-- **What is given of a version that was read.** -/
theorem fields_of_read (h : read text = .ok p) :
    ∃ values, (parts text).1.mapM readComponent = .ok values ∧
      p.fields = .ofValues values p.pre ∧ (p.pre ≠ [] ↔ (parts text).2.isSome) := by
  obtain ⟨version, values, rfl, -, hvalues, hpre⟩ := exists_components_of_read h
  refine ⟨values, hvalues, ?_, pre_of_withPrerelease hpre⟩
  rw [fields_eq_of_components (components_of_withPrerelease hpre), fields_ofComponents]
  rfl

/-- A prerelease stands in the text as it is printed. -/
theorem write_infix_of_read {v : Version} (hbuild : v.build = []) (hpre : v.IsPrerelease)
    (h : read text = .ok (.full v.major v.minor v.patch v.pre)) : v.write <:+: text := by
  have hwritten : ∀ core, Written core (.full v.major v.minor v.patch v.pre) →
      v.write <:+ core := by
    intro core hcore
    generalize hp : PartialVersion.full v.major v.minor v.patch v.pre = p at hcore
    cases hcore with
    | components =>
      -- Components alone give no prerelease.
      have hnone := congrArg (fun f => f.fields.pre) hp
      simp only [fields_ofComponents] at hnone
      exact absurd hnone hpre
    | prerelease hfront =>
      obtain ⟨rfl, rfl, rfl, rfl⟩ := PartialVersion.full.inj hp
      rw [Version.write, if_neg hpre, if_pos hbuild, List.append_nil]
      exact List.suffix_append _ _
  cases read_eq_ok_iff.mp h with
  | plain hcore => exact (hwritten _ hcore).isInfix
  | build hcore _ => exact (hwritten _ hcore).isInfix.trans (List.prefix_append _ _).isInfix

end PartialVersion

/-! ### Bounds -/

/-- Whether a version is written in the text of an arm. -/
def Arm.Writes (text : Text) (v : Version) : Prop :=
  ∃ version ∈ Arm.versionTexts text,
    PartialVersion.read version = .ok (.full v.major v.minor v.patch v.pre)

/-- **The normal form of a bound** of an arm. -/
structure Comparator.IsNormal (policy : PrereleasePolicy) (text : Text) (c : Comparator) :
    Prop where
  build_eq_nil : c.version.build = []
  /-- A prerelease is written in the arm, or it is the lowest one. -/
  writes_or_lowest : c.version.IsPrerelease →
    (Arm.Writes text c.version ∧ c.version.write <:+: text) ∨ c.version.pre = [.lowest]
  /-- Unless prereleases are included, only an upper bound is lowered. -/
  relation_eq_lt : policy = .named → c.version.pre = [.lowest] → ¬ Arm.Writes text c.version →
    c.relation = .lt

variable {policy : PrereleasePolicy} {text : Text}

/-- The versions of an arm stand in its text. -/
theorem Arm.infix_of_mem_versionTexts {version : Text} (h : version ∈ Arm.versionTexts text) :
    version <:+: text := by
  have htrim := Text.trim_isInfix text
  unfold Arm.versionTexts at h
  split at h
  · obtain ⟨word, hword, rfl⟩ := List.mem_map.mp h
    exact (Operator.operand_suffix word).isInfix.trans
      ((Text.infix_of_mem_words (List.mem_of_mem_filter hword)).trans htrim)
  · obtain ⟨last, hlast, rfl⟩ := List.mem_map.mp h
    exact (Text.trim_isInfix last).trans
      ((Text.infix_of_mem_pieces (by decide) hlast).trans htrim)

theorem Arm.Writes.write_infix {v : Version} (h : Arm.Writes text v) (hbuild : v.build = [])
    (hpre : v.IsPrerelease) : v.write <:+: text := by
  obtain ⟨version, hversion, hread⟩ := h
  exact (PartialVersion.write_infix_of_read hbuild hpre hread).trans
    (Arm.infix_of_mem_versionTexts hversion)

/-- **Each shape of a bound is in normal form.** -/
theorem PartialVersion.Bound.isNormal {p : PartialVersion} {c : Comparator}
    (h : p.Bound policy c) {version : Text} (hversion : version ∈ Arm.versionTexts text)
    (hread : read version = .ok p) : c.IsNormal policy text := by
  cases h with
  | @written r a b c pre hp =>
    subst hp
    -- This includes a `-0` that is written, which is why the last clause asks for one that is not.
    have hwrites : Arm.Writes text { major := a, minor := b, patch := c, pre } :=
      ⟨version, hversion, hread⟩
    exact ⟨rfl, fun hpre => .inl ⟨hwrites, hwrites.write_infix rfl hpre⟩,
      fun _ _ hnot => absurd hwrites hnot⟩
  | lower =>
    cases policy with
    | named => exact ⟨rfl, fun hpre => absurd rfl hpre, fun _ hlowest => absurd hlowest nofun⟩
    | included => exact ⟨rfl, fun _ => .inr rfl, nofun⟩
  | upper => exact ⟨rfl, fun _ => .inr rfl, fun _ _ _ => rfl⟩

/-- **The bounds of an arm are in normal form.** -/
theorem Arm.isNormal_of_read {arm : Arm} (h : Arm.read policy text = .ok arm) :
    ∀ c ∈ arm.comparators, c.IsNormal policy text := by
  rw [Arm.read_eq] at h
  obtain ⟨terms, hterms, rfl⟩ := map_eq_ok_iff.mp h
  intro c hc
  obtain ⟨t, ht, hbound⟩ := List.mem_flatMap.mp hc
  obtain ⟨version, hversion, hread⟩ :=
    exists_mem_of_mem_results (Arm.map_read_versionTexts hterms) (List.mem_map_of_mem ht)
  exact (Term.bound_of_mem_bounds (Arm.le_maxNumber_of_readTerms hterms ht) hbound).isNormal
    hversion hread

open PartialVersion in
/-- **Versions and bounds are read into their normal forms.**

* The numbers of a partial version are the components in front of the first wildcard, so nothing is
  given behind a number that is left open. It has a prerelease if and only if one is written, and
  then all three numbers are given.
* A bound in an arm of a range has no build metadata. Its prerelease, if it has one, is written in
  the same arm with the same numbers, or it is the lowest one, `-0`. If prereleases are not
  included, a prerelease `-0` that is not written belongs to an upper bound `<`. -/
theorem normal_forms_of_read :
    (∀ text p, PartialVersion.read text = .ok p → p.fields.IsNormal ∧
      ∃ values, (parts text).1.mapM readComponent = .ok values ∧
        p.fields = .ofValues values p.pre ∧ (p.pre ≠ [] ↔ (parts text).2.isSome)) ∧
    ∀ policy text r, Range.ofText policy text = .ok r →
      List.Forall₂ (fun piece arm => ∀ c ∈ arm.comparators, c.IsNormal policy piece)
        (Text.pieces "||".toList text) r.arms := by
  refine ⟨fun text p h => ⟨Fields.isNormal_iff.mpr ⟨p, rfl⟩, fields_of_read h⟩, ?_⟩
  intro policy text r h
  obtain ⟨arms, harms, hr⟩ := bind_eq_ok_iff.mp (mapError_eq_ok_iff.mp h)
  obtain rfl := Except.ok.inj hr
  exact (mapM_eq_ok_iff_forall₂.mp harms).imp fun piece arm => Arm.isNormal_of_read

open PartialVersion in
/-- A wildcard with a component behind it; a written `-0` beside derived ones; and a hyphen range
whose lower end is lowered since prereleases are included. -/
theorem normal_forms_of_read_lowest :
    (∃ p, PartialVersion.read "v1.x.3+b".toList = .ok p ∧ p.fields.IsNormal ∧
      p.fields = .ofValues [some 1, none, some 3] [] ∧ (parts "v1.x.3+b".toList).2 = none) ∧
    (∃ r, Range.ofText .named ">=1.2.3-0 <1.4 || ~2.0.0-rc1".toList = .ok r ∧
      List.Forall₂ (fun piece arm => ∀ c ∈ arm.comparators, c.IsNormal .named piece)
        [">=1.2.3-0 <1.4 ".toList, " ~2.0.0-rc1".toList] r.arms) ∧
    ∃ r, Range.ofText .included "1.2 - 1.3.0-rc1".toList = .ok r ∧
      List.Forall₂ (fun piece arm => ∀ c ∈ arm.comparators, c.IsNormal .included piece)
        ["1.2 - 1.3.0-rc1".toList] r.arms := by
  refine ⟨?_, ?_, ?_⟩
  · have hread : PartialVersion.read "v1.x.3+b".toList = .ok (.major 1) := rfl
    obtain ⟨hnormal, values, hvalues, hfields, hpre⟩ := normal_forms_of_read.1 _ _ hread
    obtain rfl : [some 1, none, some 3] = values := Except.ok.inj hvalues
    exact ⟨_, hread, hnormal, hfields, by simpa [PartialVersion.pre] using hpre⟩
  · exact ⟨_, rfl, normal_forms_of_read.2 .named ">=1.2.3-0 <1.4 || ~2.0.0-rc1".toList _ rfl⟩
  · exact ⟨_, rfl, normal_forms_of_read.2 .included "1.2 - 1.3.0-rc1".toList _ rfl⟩

end JuliaReleases
