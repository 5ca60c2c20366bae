import JuliaReleases.Proofs.CompatRange.Specifier
import JuliaReleases.Proofs.Range.Lowering
import JuliaReleases.Proofs.Range.Union
import JuliaReleases.Proofs.Resolution.Answer

/-!
# Compat ranges as one range

A compat range is kept as a list of arms, and there are two ways to use it: arm by arm, the way a
request for the least allowed version does, or as the single range that the arms make with `||`
between them. This file shows that the two agree.

* A text in the range notation has the arms that are written in it,
  `JuliaReleases.CompatRange.writtenArms`, if all of them are ranges
  (`JuliaReleases.CompatRange.ofComposite_eq_ok_iff`).
* However a compat range is obtained, each of its arms is a range under either policy
  (`JuliaReleases.CompatRange.Obtained.exists_read`). The arms are checked without prereleases only,
  but whether a text is a range does not depend on the policy.
* The arms with `||` between them are a range whose members are those of the arms
  (`JuliaReleases.CompatRange.mem_composite_iff`), so the least member of the whole is the least of
  the least members of the arms (`JuliaReleases.least_of_arms_eq_least_of_composite`).
* For a specifier this means that a comma is an alternative
  (`JuliaReleases.comma_joins_alternatives`).
-/

namespace JuliaReleases

namespace CompatRange

variable {policy : PrereleasePolicy} {c : CompatRange} {r : Range} {v : Version}

section Read

variable {text arm : Text}

theorem validated_eq_ok_iff {arm' : Text} :
    validated arm = .ok arm' ↔ arm' = arm ∧ ∃ r, Range.read .named arm = .ok r := by
  unfold validated
  rw [map_eq_ok_iff]
  simp only [Range.ofText, mapError_eq_ok_iff]
  constructor
  · rintro ⟨r, hr, rfl⟩
    exact ⟨rfl, r, hr⟩
  · rintro ⟨rfl, r, hr⟩
    exact ⟨r, hr, rfl⟩

/-- The pieces of a text that are not blank, without the blanks around them. -/
def writtenArms (text : Text) : List Text :=
  ((Text.pieces "||".toList text).map Text.trim).filter fun arm => !arm.isEmpty

theorem mem_writtenArms_iff : arm ∈ writtenArms text ↔
    ∃ piece ∈ Text.pieces "||".toList text, Text.trim piece ≠ [] ∧ Text.trim piece = arm := by
  simp only [writtenArms, List.mem_filter, List.mem_map, Bool.not_eq_true', List.isEmpty_eq_false_iff]
  constructor
  · rintro ⟨⟨piece, hpiece, rfl⟩, hne⟩
    exact ⟨piece, hpiece, hne, rfl⟩
  · rintro ⟨piece, hpiece, hne, rfl⟩
    exact ⟨⟨piece, hpiece, rfl⟩, hne⟩

/-- **The arms of a compat range** are these texts, if all of them are ranges. -/
theorem ofComposite_eq_ok_iff : ofComposite text = .ok c ↔
    c.arms = writtenArms text ∧ ∀ arm ∈ writtenArms text, ∃ r, Range.read .named arm = .ok r := by
  have hread : ofComposite text = mk <$> (writtenArms text).mapM validated := rfl
  rw [hread]
  constructor
  · intro h
    obtain ⟨arms, harms, rfl⟩ := map_eq_ok_iff.mp h
    rw [mapM_eq_ok_iff] at harms
    have hsame := map_eq_map_of_read (g := id) (k := id) harms fun arm arm' harm =>
      (validated_eq_ok_iff.mp harm).1.symm
    refine ⟨by simpa using hsame.symm, fun arm harm => ?_⟩
    obtain ⟨_, -, harm'⟩ := exists_mem_of_mem_read harms harm
    exact (validated_eq_ok_iff.mp harm').2
  · rintro ⟨harms, hranges⟩
    refine map_eq_ok_iff.mpr ⟨writtenArms text, mapM_eq_ok_iff.mpr ?_, by rw [← harms]⟩
    exact List.map_congr_left fun arm harm => validated_eq_ok_iff.mpr ⟨rfl, hranges arm harm⟩

end Read

/-- **The ways to get a compat range.** -/
inductive Obtained : CompatRange → Prop
  /-- Nothing is stated, so every release is allowed. -/
  | any : Obtained any
  /-- It is read from a specifier. -/
  | ofSpecifier {specifier : Text} {c : CompatRange} :
      ofSpecifier specifier = .ok c → Obtained c
  /-- It is read from a text in the range notation. -/
  | ofComposite {text : Text} {c : CompatRange} : ofComposite text = .ok c → Obtained c

/-- **Each arm is a range**, under either policy. -/
theorem Obtained.exists_read (h : c.Obtained) (policy : PrereleasePolicy) {arm : Text}
    (harm : arm ∈ c.arms) : ∃ r, Range.read policy arm = .ok r := by
  refine (Range.exists_read_iff policy .named).mpr ?_
  cases h with
  | any =>
    obtain rfl : arm = ['*'] := List.mem_singleton.mp harm
    exact ⟨_, rfl⟩
  | ofSpecifier hread =>
    exact (Clause.toArm_eq_ok_iff.mp (toArm_of_mem_arms hread harm).2).2
  | ofComposite hread =>
    obtain ⟨harms, hranges⟩ := ofComposite_eq_ok_iff.mp hread
    exact hranges arm (harms ▸ harm)

/-- Arms that are ranges make a range. -/
theorem exists_read_composite (hne : c.arms ≠ [])
    (h : ∀ arm ∈ c.arms, ∃ r, Range.read policy arm = .ok r) :
    ∃ r, Range.read policy c.composite = .ok r :=
  (Range.exists_read_intercalate_iff hne).mpr h

/-- **The members of the whole are those of the arms.** -/
theorem mem_composite_iff (hne : c.arms ≠ []) (h : Range.read policy c.composite = .ok r) :
    v ∈ r ↔ c.Admits policy v :=
  Range.mem_iff_of_read_intercalate hne h

/-- The least member of the whole is found arm by arm. -/
theorem least?_eq_of_read_composite (hne : c.arms ≠ [])
    (h : Range.read policy c.composite = .ok r) (versions : List Version) :
    Resolution.least? policy c versions = r.least? versions := by
  have hleast : Version.Minimizes
      (Resolution.candidates {} policy (some c) versions .min) (r.least? versions) := by
    refine Version.minimizes_min? fun v => ?_
    simp [Resolution.candidates, Request.Fits, mem_composite_iff hne h]
  exact Resolution.minimizes_least?.unique hleast

end CompatRange

open CompatRange in
/-- **The arms and the whole resolve alike.** Each arm of a compat range is a range, so none is
passed over, and the least of the least versions of the arms is the least version of the single
range that the arms make. -/
theorem least_of_arms_eq_least_of_composite {c : CompatRange} (h : c.Obtained) (hne : c.arms ≠ [])
    (policy : PrereleasePolicy) (versions : List Version) :
    (∀ arm ∈ c.arms, ∃ r, Range.ofText policy arm = .ok r) ∧
      ∃ r, Range.ofText policy c.composite = .ok r ∧
        Resolution.least? policy c versions = r.least? versions := by
  have harms : ∀ arm ∈ c.arms, ∃ r, Range.read policy arm = .ok r := fun arm harm =>
    h.exists_read policy harm
  obtain ⟨r, hr⟩ := exists_read_composite hne harms
  refine ⟨fun arm harm => ?_, r, mapError_eq_ok_iff.mpr hr,
    least?_eq_of_read_composite hne hr versions⟩
  obtain ⟨r', hr'⟩ := harms arm harm
  exact ⟨r', mapError_eq_ok_iff.mpr hr'⟩

open CompatRange in
/-- Two arms of a text in the range notation, and a release that only the second one admits. -/
theorem least_of_arms_eq_least_of_composite_caret :
    let c : CompatRange := ⟨["^1.8".toList, ">=1.6 <1.7".toList]⟩
    let versions := Tag.versions ["v1.8.0".toList, "v1.6.7".toList, "v1.7.2".toList]
    c.Obtained ∧ c.arms ≠ [] ∧
      (Resolution.least? .included c versions).map Version.write = some "1.6.7".toList ∧
      (∀ arm ∈ c.arms, ∃ r, Range.ofText .included arm = .ok r) ∧
      ∃ r, Range.ofText .included c.composite = .ok r ∧
        Resolution.least? .included c versions = r.least? versions :=
  have hobtained : Obtained ⟨["^1.8".toList, ">=1.6 <1.7".toList]⟩ :=
    @Obtained.ofComposite "^1.8||>=1.6 <1.7".toList _ rfl
  ⟨hobtained, List.cons_ne_nil _ _, by decide +kernel,
    least_of_arms_eq_least_of_composite hobtained (List.cons_ne_nil _ _) .included _⟩

open CompatRange Specifier in
/-- **A comma is an alternative.** Two specifiers with a comma between them are a specifier if and
only if both of them are, and it has the arms of both, in order. A specifier that is refused is
repeated in the error together with the first clause at fault, if it has any clause. The range of a
specifier has the members of all its arms. -/
theorem comma_joins_alternatives :
    (∀ (a b : Text) (c : CompatRange), ofSpecifier (a ++ ',' :: b) = .ok c ↔
      ∃ ca cb, ofSpecifier a = .ok ca ∧ ofSpecifier b = .ok cb ∧ c.arms = ca.arms ++ cb.arms) ∧
    (∀ (specifier : Text) (e : RangeError), ofSpecifier specifier = .error e ↔
      (∀ ch ∈ specifier, isBlank ch = true) ∧ e = ⟨specifier, .noClause⟩ ∨
        ∃ before clause after fault, clauses specifier = before ++ clause :: after ∧
          (∀ earlier ∈ before, ∃ arm, Clause.toArm earlier = .ok arm) ∧
          Clause.toArm clause = .error fault ∧ e = ⟨specifier, .clause clause fault⟩) ∧
    (∀ (specifier : Text) (c : CompatRange), ofSpecifier specifier = .ok c →
      ∃ r, c.range = .ok r ∧ ∀ v, v ∈ r ↔
        ∃ arm ∈ c.arms, ∃ r', Range.ofText .named arm = .ok r' ∧ v ∈ r') := by
  refine ⟨fun a b c => ?_, fun specifier e => ofSpecifier_eq_error_iff, fun specifier c h => ?_⟩
  · simp only [ofSpecifier_eq_ok_iff, allClauses_append_comma, List.map_append]
    constructor
    · intro h
      obtain ⟨as, bs, hc, ha, hb⟩ := List.append_eq_map_iff.mp h
      exact ⟨⟨as⟩, ⟨bs⟩, ha.symm, hb.symm, hc⟩
    · rintro ⟨ca, cb, ha, hb, hc⟩
      rw [ha, hb, hc, List.map_append]
  · have hne := arms_ne_nil_of_ofSpecifier h
    obtain ⟨r, hr⟩ := exists_read_composite hne fun arm harm =>
      (Obtained.ofSpecifier h).exists_read .named harm
    refine ⟨r, mapError_eq_ok_iff.mpr hr, fun v => ?_⟩
    rw [mem_composite_iff hne hr, Admits]
    simp only [Range.ofText, mapError_eq_ok_iff]

open CompatRange in
/-- Two specifiers with a comma between them, and the range of both. -/
theorem comma_joins_alternatives_caret :
    ofSpecifier "1.6,2 - 3".toList = .ok ⟨["^1.6".toList, "2 - 3".toList]⟩ ∧
      ∃ r, (CompatRange.mk ["^1.6".toList, "2 - 3".toList]).range = .ok r ∧ ∀ v, v ∈ r ↔
        ∃ arm ∈ ["^1.6".toList, "2 - 3".toList],
          ∃ r', Range.ofText .named arm = .ok r' ∧ v ∈ r' := by
  have hboth := (comma_joins_alternatives.1 "1.6".toList "2 - 3".toList
    ⟨["^1.6".toList, "2 - 3".toList]⟩).mpr ⟨⟨["^1.6".toList]⟩, ⟨["2 - 3".toList]⟩, rfl, rfl, rfl⟩
  exact ⟨hboth, comma_joins_alternatives.2.2 _ _ hboth⟩

end JuliaReleases
