import JuliaReleases.Proofs.Range.Meaning

/-!
# The comparisons partition the versions

A partial version stands for all versions that agree with its numbers, and the five comparisons
place a version before, among or behind them. Each comparison has a definition of its own, and their
bounds meet at three kinds of places: between a release and its lowest prerelease, at a wildcard,
and at the greatest number, which has no next one. This file shows that there is neither a gap nor
an overlap at any of them (`JuliaReleases.comparisons_partition`).

It is enough to compare the definitions in pairs. `<` is the opposite of `>=`, `>` is the opposite
of `<=`, and `=` is both of `>=` and `<=`. The one inequality left,
`JuliaReleases.PartialVersion.atMost_of_lessThan`, is where the numbers have to be such as can be
written: the next number is then not less than the number itself, even where it stays the same.
-/

namespace JuliaReleases

namespace PartialVersion

variable {policy : PrereleasePolicy} {p : PartialVersion} {v : Version}

/-- No version meets the bounds that are there to keep all out. -/
theorem not_admits_nothing : ¬ ∀ bound ∈ nothing, bound.Admits v := by
  rw [nothing, List.forall_mem_singleton]
  exact fun h => not_lt_replicate_zero (Version.lt_floor_iff.mp h)

/-! ### The comparisons in pairs -/

/-- `>=` is the opposite of `<`. -/
theorem atLeast_iff_not_lessThan (hv : policy.GoesByBounds v) :
    (∀ bound ∈ p.atLeast policy, bound.Admits v) ↔ ¬ ∀ bound ∈ p.lessThan, bound.Admits v := by
  cases p with
  | wildcard => exact iff_of_true (by simp [atLeast, lowerEnd]) not_admits_nothing
  | major a | minor a b =>
    simp only [atLeast, lowerEnd, lessThan, List.forall_mem_singleton]
    exact start_le_iff_of_goesByBounds hv
  | full a b c pre =>
    simp only [atLeast, lessThan, List.forall_mem_singleton]
    exact not_lt.symm

/-- `>` is the opposite of `<=`. -/
theorem greaterThan_iff_not_atMost (hv : policy.GoesByBounds v) :
    (∀ bound ∈ p.greaterThan policy, bound.Admits v) ↔ ¬ ∀ bound ∈ p.atMost, bound.Admits v := by
  cases p with
  | wildcard => exact iff_of_false not_admits_nothing (by simp [atMost])
  | major a | minor a b =>
    simp only [greaterThan, atMost, List.forall_mem_singleton]
    exact start_le_iff_of_goesByBounds hv
  | full a b c pre =>
    simp only [greaterThan, atMost, List.forall_mem_singleton]
    exact not_le.symm

/-- `=` is both of `>=` and `<=`. -/
theorem exact_iff_atLeast_and_atMost :
    (∀ bound ∈ p.exact policy, bound.Admits v) ↔
      (∀ bound ∈ p.atLeast policy, bound.Admits v) ∧ ∀ bound ∈ p.atMost, bound.Admits v := by
  cases p with
  | wildcard => simp [exact, atLeast, lowerEnd, atMost]
  | major a | minor a b =>
    simp only [atLeast, lowerEnd, atMost, exact, forall_admits_pair, List.forall_mem_singleton]
  | full a b c pre =>
    simp only [exact, atLeast, atMost, List.forall_mem_singleton]
    exact le_antisymm_iff.trans and_comm

theorem le_nextNumber {n : Nat} (h : n ≤ maxNumber) : n ≤ nextNumber n :=
  le_min (Nat.le_succ n) h

/-- Stepping to the next number in a list does not lower it. -/
theorem cons_nextNumber_le {n : Nat} (h : n ≤ maxNumber) (rest : List Nat) :
    n :: rest ≤ nextNumber n :: rest := by
  refine not_lt.mp fun hlt => ?_
  rcases List.cons_lt_cons_iff.mp hlt with hn | ⟨-, hrest⟩
  · exact absurd (le_nextNumber h) (not_le.mpr hn)
  · exact lt_irrefl rest hrest

/-- `<` lies within `<=`, since the next number is not less than the number itself. -/
theorem atMost_of_lessThan (hp : ∀ n ∈ p.components, n ≤ maxNumber)
    (h : ∀ bound ∈ p.lessThan, bound.Admits v) : ∀ bound ∈ p.atMost, bound.Admits v := by
  cases p with
  | wildcard => simp [atMost]
  | major a =>
    have hnext : [a, 0, 0] ≤ [nextNumber a, 0, 0] :=
      cons_nextNumber_le (hp a (by simp [components])) [0, 0]
    simp only [lessThan, atMost, List.forall_mem_singleton] at h ⊢
    exact Version.lt_floor_iff.mpr ((Version.lt_floor_iff.mp h).trans_le hnext)
  | minor a b =>
    have hb : [b, 0] ≤ [nextNumber b, 0] := cons_nextNumber_le (hp b (by simp [components])) [0]
    have hnext : [a, b, 0] ≤ [a, nextNumber b, 0] := by
      refine not_lt.mp fun hlt => ?_
      rcases List.cons_lt_cons_iff.mp hlt with ha | ⟨-, hrest⟩
      · exact lt_irrefl a ha
      · exact absurd hb (not_le.mpr hrest)
    simp only [lessThan, atMost, List.forall_mem_singleton] at h ⊢
    exact Version.lt_floor_iff.mpr ((Version.lt_floor_iff.mp h).trans_le hnext)
  | full a b c pre =>
    simp only [lessThan, atMost, List.forall_mem_singleton] at h ⊢
    exact le_of_lt h

end PartialVersion

/-! ### How the comparisons hang together -/

/-- **Comparisons in pairs**: given which of them hold, what each pair has to do with each other. -/
structure Operator.Pairs (holds : Operator → Prop) : Prop where
  ge_iff : holds .ge ↔ ¬ holds .lt
  gt_iff : holds .gt ↔ ¬ holds .le
  eq_iff : holds .eq ↔ holds .ge ∧ holds .le
  le_of_lt : holds .lt → holds .le

namespace Operator.Pairs

variable {holds : Operator → Prop} (h : Pairs holds)
include h

/-- One of the three strict comparisons holds, and only one. -/
theorem existsUnique_strict : ∃! op, op ∈ [Operator.lt, .eq, .gt] ∧ holds op := by
  have heq_lt : holds .eq → ¬ holds .lt := fun heq => h.ge_iff.mp (h.eq_iff.mp heq).1
  have heq_gt : holds .eq → ¬ holds .gt := fun heq hgt => h.gt_iff.mp hgt (h.eq_iff.mp heq).2
  have hlt_gt : holds .lt → ¬ holds .gt := fun hlt hgt => h.gt_iff.mp hgt (h.le_of_lt hlt)
  simp only [List.mem_cons, List.not_mem_nil, or_false]
  by_cases hlt : holds .lt
  · refine ⟨.lt, ⟨.inl rfl, hlt⟩, ?_⟩
    rintro op ⟨rfl | rfl | rfl, hop⟩
    · rfl
    · exact absurd hlt (heq_lt hop)
    · exact absurd hop (hlt_gt hlt)
  · by_cases hle : holds .le
    · have heq : holds .eq := h.eq_iff.mpr ⟨h.ge_iff.mpr hlt, hle⟩
      refine ⟨.eq, ⟨.inr (.inl rfl), heq⟩, ?_⟩
      rintro op ⟨rfl | rfl | rfl, hop⟩
      · exact absurd hop hlt
      · rfl
      · exact absurd hop (heq_gt heq)
    · have hgt : holds .gt := h.gt_iff.mpr hle
      refine ⟨.gt, ⟨.inr (.inr rfl), hgt⟩, ?_⟩
      rintro op ⟨rfl | rfl | rfl, hop⟩
      · exact absurd hop hlt
      · exact absurd hgt (heq_gt hop)
      · rfl

theorem le_iff_lt_or_eq : holds .le ↔ holds .lt ∨ holds .eq := by
  rw [h.eq_iff, h.ge_iff]
  have := h.le_of_lt
  tauto

theorem ge_iff_eq_or_gt : holds .ge ↔ holds .eq ∨ holds .gt := by
  rw [h.eq_iff, h.gt_iff, h.ge_iff]
  have := h.le_of_lt
  tauto

end Operator.Pairs

/-- The comparisons with a partial version, by their bounds. -/
theorem PartialVersion.pairs_bounds {policy : PrereleasePolicy} {p : PartialVersion} {v : Version}
    (hv : policy.GoesByBounds v) (hp : ∀ n ∈ p.components, n ≤ maxNumber) :
    Operator.Pairs fun op => ∀ bound ∈ p.bounds policy op, bound.Admits v where
  ge_iff := atLeast_iff_not_lessThan hv
  gt_iff := greaterThan_iff_not_atMost hv
  eq_iff := exact_iff_atLeast_and_atMost
  le_of_lt := atMost_of_lessThan hp

/-! ### Ranges of one comparison -/

namespace Range

variable {policy : PrereleasePolicy} {text : Text} {p : PartialVersion} {v : Version}

theorem isToken_of_read (hread : PartialVersion.read text = .ok p)
    (hblank : ∀ c ∈ text, isBlank c = false) (hbar : '|' ∉ text) : IsToken text := by
  obtain ⟨c, rest, htext, -⟩ := PartialVersion.exists_eq_cons_of_read hread
  exact ⟨⟨htext ▸ List.cons_ne_nil c rest, hblank⟩, Text.pieces_of_not_mem (by decide) hbar⟩

theorem mem_operand_iff_of_goesByBounds (hv : policy.GoesByBounds v) (op : Operator) :
    v ∈ ofTerms policy [⟨.operand op, p⟩] ↔ ∀ bound ∈ p.bounds policy op, bound.Admits v := by
  rw [mem_ofTerms_iff_of_goesByBounds hv, List.forall_mem_singleton]
  rfl

end Range

open Range in
/-- **The comparisons partition the versions.** A version is before, among or behind those that a
partial version stands for, and only one of these; `<=` means before or among, and `>=` among or
behind. This holds for every version if prereleases are included, and for every release if they are
not. -/
theorem comparisons_partition (policy : PrereleasePolicy) {text : Text} {p : PartialVersion}
    (hread : PartialVersion.read text = .ok p) (hblank : ∀ c ∈ text, isBlank c = false)
    (hbar : '|' ∉ text) :
    ∃ r : Operator → Range, (∀ op, Range.read policy (op.write ++ text) = .ok (r op)) ∧
      ∀ v : Version, (v.IsPrerelease → policy = .included) →
        (∃! op, op ∈ [Operator.lt, .eq, .gt] ∧ v ∈ r op) ∧
        (v ∈ r .le ↔ v ∈ r .lt ∨ v ∈ r .eq) ∧ (v ∈ r .ge ↔ v ∈ r .eq ∨ v ∈ r .gt) := by
  have htoken := isToken_of_read hread hblank hbar
  refine ⟨fun op => ofTerms policy [⟨.operand op, p⟩], fun op => ?_, fun v hv => ?_⟩
  · exact read_token (htoken.operator_append op) (PartialVersion.read?_append_of_read hread op)
      (Term.read_append_of_read hread op)
  · have hpairs := PartialVersion.pairs_bounds hv (PartialVersion.le_maxNumber_of_read hread)
    simp only [mem_operand_iff_of_goesByBounds hv]
    exact ⟨hpairs.existsUnique_strict, hpairs.le_iff_lt_or_eq, hpairs.ge_iff_eq_or_gt⟩

open Range in
/-- The greatest number, behind which there is no next one, and a prerelease of it. -/
theorem comparisons_partition_greatest :
    let text := "18446744073709551615.x".toList
    let v : Version := Version.floor maxNumber 0 0
    PartialVersion.read text = .ok (.major maxNumber) ∧ (∀ c ∈ text, isBlank c = false) ∧
      '|' ∉ text ∧ (v.IsPrerelease → PrereleasePolicy.included = .included) ∧
      ∃ r : Operator → Range, (∀ op, Range.read .included (op.write ++ text) = .ok (r op)) ∧
        (∃! op, op ∈ [Operator.lt, .eq, .gt] ∧ v ∈ r op) ∧
        (v ∈ r .le ↔ v ∈ r .lt ∨ v ∈ r .eq) ∧ (v ∈ r .ge ↔ v ∈ r .eq ∨ v ∈ r .gt) := by
  have hread : PartialVersion.read "18446744073709551615.x".toList = .ok (.major maxNumber) := by
    rfl
  have hblank : ∀ c ∈ "18446744073709551615.x".toList, isBlank c = false :=
    fun c hc => Bool.eq_false_iff.mpr (List.any_eq_false.mp rfl c hc)
  have hbar : '|' ∉ "18446744073709551615.x".toList := by decide
  obtain ⟨r, hr, hpartition⟩ := comparisons_partition .included hread hblank hbar
  exact ⟨hread, hblank, hbar, fun _ => rfl, r, hr, hpartition _ fun _ => rfl⟩

end JuliaReleases
