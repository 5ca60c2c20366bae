import JuliaReleases.Proofs.CompatRange.Clause
import JuliaReleases.Proofs.Range.Caret

/-!
# Clauses without operator

A version without operator means two things: in a range it means `=`, in a specifier it is meant to
be compatible with what is written. The bridge is `JuliaReleases.Clause.withCaret`, which puts a `^`
in front of a **bare** version, one of digits and points with a suffix. Such a clause has the same
range as the clause with a caret in front of it, blanks included.

Ranges know more versions than bare ones: `v1.2.3`, or `1.2.x`. A clause of this kind is passed on
as it is, so its version keeps the meaning that the range notation gives it, and
`JuliaReleases.PartialVersion.CaretIsExact` says when that is the meaning of `^` all the same. Both
cases are in `JuliaReleases.caret_of_bare_version`.
-/

namespace JuliaReleases

namespace Clause

variable {clause arm text : Text}

/-- **A clause without operator** that is no hyphen range is a single bound, and its blanks, if
any, are no spaces. -/
theorem arm_of_no_operator (h : toArm clause = .ok arm)
    (hstart : ∀ c ∈ (Text.trim clause).head?, c ∉ Operator.starts)
    (hhyphen : ¬ " - ".toList <:+: Text.trim clause) :
    arm = withCaret (Text.trim clause) ∧ Text.trim clause ≠ [] ∧ ' ' ∉ Text.trim clause ∧
      ∃ r, Range.read .named arm = .ok r := by
  obtain ⟨hstands, hread⟩ := toArm_eq_ok_iff.mp h
  rw [closeOperator_of_head? hstart] at hstands
  generalize Text.trim clause = text at hstands hhyphen
  cases hstands with
  | hyphen _ _ htext => exact absurd ⟨_, _, htext.symm⟩ hhyphen
  | single hne hspace _ _ => exact ⟨rfl, hne, hspace, hread⟩

/-- What can be read behind a caret can be read without it. -/
theorem exists_read_of_isBareVersion (hbare : isBareVersion text = true) {r : Range}
    (h : Range.read .named (Operator.caret.write ++ text) = .ok r) :
    ∃ r', Range.read .named text = .ok r' := by
  have htoken := isToken_of_isBareVersion hbare
  obtain ⟨p, hp⟩ := (htoken.operator_append .caret).exists_read_operand h
  have hoperand : Operator.operand (Operator.caret.write ++ text) = text := by
    obtain ⟨c, rest, rfl, hc⟩ := exists_eq_cons_of_isBareVersion hbare
    refine congrArg Prod.snd (Operator.split_append fun rest' heq => ?_)
    rw [(List.cons.inj heq).1] at hc
    exact absurd hc (by decide)
  rw [hoperand] at hp
  exact ⟨_, htoken.read_bare hp⟩

end Clause

open Range in
/-- **A bare version gets a caret**, and no other clause without operator does. For a bare version
the arm has the range of the clause with a caret in front of it. Any other clause is its own arm.
Unless there is a `||` in it, its first version is read as it is without a caret, and where the
clause is just this version, the two differ if and only if a caret makes a difference to it. -/
theorem caret_of_bare_version {clause arm : Text} (h : Clause.toArm clause = .ok arm)
    (hstart : ∀ c ∈ (Text.trim clause).head?, c ∉ Operator.starts)
    (hhyphen : ¬ " - ".toList <:+: Text.trim clause) :
    (Clause.isBareVersion (Text.trim clause) = true →
      arm = Operator.caret.write ++ Text.trim clause ∧ ∃ r, Range.read .named arm = .ok r ∧
        Range.read .named (Operator.caret.write ++ clause) = .ok r) ∧
    (Clause.isBareVersion (Text.trim clause) = false → arm = Text.trim clause ∧
      (¬ "||".toList <:+: arm → ∃ word words p others, Text.words arm = word :: words ∧
        PartialVersion.read word = .ok p ∧ (words = [] → others = []) ∧
        ∃ r r', Range.read .named arm = .ok r ∧
          Range.read .named (Operator.caret.write ++ clause) = .ok r' ∧
          r = ofTerms .named (⟨.operand .eq, p⟩ :: others) ∧
          r' = ofTerms .named (⟨.operand .caret, p⟩ :: others) ∧
          (p.CaretIsExact → ∀ v, v ∈ r ↔ v ∈ r') ∧
          (¬ p.CaretIsExact → words = [] →
            ∃ v : Version, (∀ n ∈ v.numbers, n ≤ maxNumber) ∧ ¬ (v ∈ r ↔ v ∈ r')))) := by
  obtain ⟨harm, hne, hspace, r, hr⟩ := Clause.arm_of_no_operator h hstart hhyphen
  obtain ⟨before, after, hbefore, hafter, hclause⟩ := Text.exists_blanks_trim clause
  have htrim := Text.trim_trim clause
  generalize Text.trim clause = text at harm hne hspace hclause htrim hstart ⊢
  constructor
  · intro hbare
    obtain rfl : arm = Operator.caret.write ++ text := by rw [harm, Clause.withCaret, if_pos hbare]
    have hbar : ¬ "||".toList <:+: text := fun hmem =>
      Clause.bar_notMem_of_isBareVersion hbare (hmem.subset (by decide))
    obtain ⟨r', hr'⟩ := Clause.exists_read_of_isBareVersion hbare hr
    obtain ⟨_, _, _, _, -, -, -, -, hop⟩ :=
      exists_read_operator_append hspace htrim hne hstart hbar hr'
    -- The arm has no blanks behind the caret, and the clause may have some.
    have hclose := hop .caret [] [] (by simp) (by simp)
    have hspaced := hop .caret before after hbefore hafter
    rw [List.append_nil, List.append_nil] at hclose
    refine ⟨rfl, _, hclose, ?_⟩
    rwa [hclause, ← List.append_assoc, ← List.append_assoc]
  · intro hbare
    obtain rfl : arm = text := by rw [harm, Clause.withCaret, if_neg (by simp [hbare])]
    refine ⟨rfl, fun hbar => ?_⟩
    obtain ⟨word, words, p, others, hwords, hp, rfl, hsingle, hop⟩ :=
      exists_read_operator_append hspace htrim hne hstart hbar hr
    have hspaced := hop .caret before after hbefore hafter
    refine ⟨word, words, p, others, hwords, hp, hsingle, _, _, hr, ?_, rfl, rfl,
      fun hexact v => PartialVersion.mem_iff_of_caretIsExact hexact, fun hexact hnil => ?_⟩
    · rwa [hclause, ← List.append_assoc, ← List.append_assoc]
    · rw [hsingle hnil]
      exact PartialVersion.exists_not_mem_iff (PartialVersion.le_maxNumber_of_read hp) hexact

open Range in
/-- A bare version with a blank around it, and a version with a prefix. -/
theorem caret_of_bare_version_minor :
    (Clause.toArm " 1.2".toList = .ok "^1.2".toList ∧
      (∀ c ∈ (Text.trim " 1.2".toList).head?, c ∉ Operator.starts) ∧
      ¬ " - ".toList <:+: Text.trim " 1.2".toList ∧
      ∃ r, Range.read .named "^1.2".toList = .ok r ∧ Range.read .named "^ 1.2".toList = .ok r) ∧
    Clause.toArm "v1.2".toList = .ok "v1.2".toList ∧
      (∀ c ∈ (Text.trim "v1.2".toList).head?, c ∉ Operator.starts) ∧
      ¬ " - ".toList <:+: Text.trim "v1.2".toList ∧
      ∃ r r', Range.read .named "v1.2".toList = .ok r ∧ Range.read .named "^v1.2".toList = .ok r' ∧
        ∃ v : Version, ¬ (v ∈ r ↔ v ∈ r') := by
  have hdigit : ∀ c ∈ (Text.trim " 1.2".toList).head?, c ∉ Operator.starts := by
    rintro c ⟨⟩
    decide
  have hletter : ∀ c ∈ (Text.trim "v1.2".toList).head?, c ∉ Operator.starts := by
    rintro c ⟨⟩
    decide
  have hbare := @caret_of_bare_version " 1.2".toList "^1.2".toList rfl hdigit (by decide)
  have hother := @caret_of_bare_version "v1.2".toList "v1.2".toList rfl hletter (by decide)
  refine ⟨⟨rfl, hdigit, by decide, (hbare.1 rfl).2⟩, rfl, hletter, by decide, ?_⟩
  obtain ⟨word, words, p, others, hwords, hp, -, r, r', hr, hr', -, -, -, hdiffer⟩ :=
    (hother.2 rfl).2 (by decide)
  obtain ⟨rfl, rfl⟩ : "v1.2".toList = word ∧ [] = words := List.cons.inj hwords
  obtain rfl : .minor 1 2 = p := Except.ok.inj hp
  obtain ⟨v, -, hv⟩ := hdiffer (by decide) rfl
  exact ⟨r, r', hr, hr', v, hv⟩

/-- The clause `v1.2.3` has no operator, and it is passed on without a caret. It does not admit
`1.2.4`, but it would with a caret. -/
theorem exists_clause_without_caret :
    ∃ clause : Text, Clause.toArm clause = .ok clause ∧
      (∀ c ∈ (Text.trim clause).head?, c ∉ Operator.starts) ∧
      ¬ " - ".toList <:+: Text.trim clause ∧
      ∃ r r', Range.read .named clause = .ok r ∧
        Range.read .named (Operator.caret.write ++ clause) = .ok r' ∧
        ¬ (({ major := 1, minor := 2, patch := 4 } : Version) ∈ r ↔
          ({ major := 1, minor := 2, patch := 4 } : Version) ∈ r') := by
  refine ⟨"v1.2.3".toList, rfl, ?_, by decide, _, _, rfl, rfl, by decide⟩
  rintro c ⟨⟩
  decide

end JuliaReleases
