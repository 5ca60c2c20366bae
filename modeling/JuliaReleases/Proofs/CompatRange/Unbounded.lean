import JuliaReleases.Proofs.CompatRange.Alternatives

/-!
# Specifiers without bounds

An arm without bounds is written `*`, and every release belongs to it. A clause that is just `*` is
refused for that reason, but there are other ways to write such an arm: another wildcard, as in
`x`, an operator or a letter `v` in front of the wildcard, as in `>=*` or `vX`, something behind it,
as in `*.2`, or nothing at all between two marks `||`.

All of them are recognised by their first component, `JuliaReleases.PartialVersion.leading`, and by
their operator, and this is `JuliaReleases.IsUnbounded`. Two facts lead there. What follows the
first component of a partial version never decides whether it has numbers
(`JuliaReleases.PartialVersion.eq_wildcard_iff_of_read`), and a partial version without numbers has
no bounds except behind `>` and `<`, where nothing is allowed
(`JuliaReleases.PartialVersion.bounds_eq_nil_iff`).
-/

namespace JuliaReleases

/-! ### The first component -/

namespace PartialVersion

variable {text : Text} {p : PartialVersion} {policy : PrereleasePolicy} {op : Operator}

/-- The three ways to leave a number open. -/
def wildcards : List Text :=
  [['x'], ['X'], ['*']]

/-- The first component of a partial version as it is written, behind a letter `v`. -/
def leading (text : Text) : Text :=
  (Tag.stripPrefix text).takeWhile fun c => c ∉ ['.', '-', '+']

theorem readComponent_eq_ok_none_iff {component : Text} :
    readComponent component = .ok none ↔ component ∈ wildcards := by
  simp only [wildcards, List.mem_cons, List.not_mem_nil, or_false]
  unfold readComponent
  split
  · next h => exact iff_of_true rfl h
  · next h =>
    refine iff_of_false (fun hread => ?_) h
    split at hread
    · exact absurd hread (by simp)
    · split at hread
      · exact absurd hread (by simp)
      · cases hvalue : Decimal.read? component <;> simp [hvalue] at hread

theorem eq_wildcard_iff : p = wildcard ↔ p.components = [] := by
  cases p <;> simp [components]

/-- There are no numbers if the first one is left open. -/
theorem ofComponents_eq_wildcard_iff {first : Option Nat} {others : List (Option Nat)} :
    ofComponents (first :: others) = wildcard ↔ first = none := by
  cases first with
  | none => simp [ofComponents]
  | some a => rcases others with _ | ⟨_ | b, _ | ⟨_ | c, more⟩⟩ <;> simp [ofComponents]

/-- **Whether a partial version has numbers** is decided by its first component. -/
theorem eq_wildcard_iff_of_read (h : read text = .ok p) :
    p = wildcard ↔ leading text ∈ wildcards := by
  obtain ⟨version, components, hversion, -, hcomponents, hpre⟩ := exists_components_of_read h
  have hleading : ((Text.cut '-' version).1.splitOn '.').head? = some (leading text) := by
    rw [Text.head?_splitOn, Text.cut_fst, hversion, Text.cut_fst, List.takeWhile_takeWhile,
      List.takeWhile_takeWhile, leading]
    simp only [List.mem_cons, List.not_mem_nil, or_false, not_or, decide_eq_true_eq, ne_eq,
      and_assoc]
  obtain ⟨others, hsplit⟩ := List.head?_eq_some_iff.mp hleading
  have hread := mapM_eq_ok_iff.mp hcomponents
  rw [hsplit] at hread
  cases components with
  | nil => exact absurd hread (by simp)
  | cons first rest =>
    obtain ⟨hfirst, -⟩ := List.cons.inj hread
    rw [eq_wildcard_iff, components_of_withPrerelease hpre, ← eq_wildcard_iff,
      ofComponents_eq_wildcard_iff, ← readComponent_eq_ok_none_iff, hfirst, Except.ok.injEq]

/-- **A partial version has no bounds** if it has no numbers; but behind `>` and `<` that is
nothing, and not everything. -/
theorem bounds_eq_nil_iff :
    p.bounds policy op = [] ↔ p = wildcard ∧ op ≠ .gt ∧ op ≠ .lt := by
  cases p with
  | wildcard =>
    cases op <;>
      simp [bounds, atLeast, lowerEnd, atMost, greaterThan, lessThan, nothing, exact, caret, tilde]
  | major a =>
    cases op <;>
      simp [bounds, atLeast, lowerEnd, atMost, greaterThan, lessThan, exact, caret, tilde]
  | minor a b =>
    -- Whether the major number is zero matters to the caret.
    cases op <;> rcases a with _ | a <;>
      simp [bounds, atLeast, lowerEnd, atMost, greaterThan, lessThan, exact, caret, tilde]
  | full a b c pre =>
    cases op <;> simp [bounds, atLeast, atMost, greaterThan, lessThan, exact, caret, tilde]

end PartialVersion

/-! ### Arms without bounds -/

/-- Only an arm without bounds is written as a wildcard. -/
theorem Arm.write_eq_wildcard_iff {arm : Arm} : arm.write = ['*'] ↔ arm.comparators = [] := by
  obtain ⟨_ | ⟨bound, bounds⟩⟩ := arm
  · exact iff_of_true rfl rfl
  · refine iff_of_false (fun h => ?_) (List.cons_ne_nil _ _)
    obtain ⟨rest, hrest⟩ :=
      Text.exists_intercalate_cons [' '] bound.write (bounds.map Comparator.write)
    have hwrite : bound.write ++ rest = ['*'] := hrest.symm.trans h
    rw [Comparator.write, List.append_assoc] at hwrite
    cases hrel : bound.relation <;> simp [hrel, Relation.write, Operator.write] at hwrite

/-- **A text without bounds**: nothing at all, or a wildcard as its first component that does not
stand behind `>` or `<`. -/
def IsUnbounded (text : Text) : Prop :=
  text = [] ∨ PartialVersion.leading (Operator.operand text) ∈ PartialVersion.wildcards ∧
    (Operator.split text).1 ≠ some .gt ∧ (Operator.split text).1 ≠ some .lt

instance (text : Text) : Decidable (IsUnbounded text) :=
  inferInstanceAs (Decidable (_ ∨ _ ∧ _ ∧ _))

section Word

variable {policy : PrereleasePolicy} {text : Text}

theorem Term.bounds_eq_nil_iff {t : Term} (h : Term.read text = .ok t) :
    t.bounds policy = [] ↔ IsUnbounded text := by
  have hne : text ≠ [] := by
    rintro rfl
    have hmissing : Term.read [] = .error .missingVersion := rfl
    exact absurd (hmissing.symm.trans h) (by simp)
  have hread := (Term.read_eq_ok h).2
  rw [Term.bounds, Term.role_of_read h, PartialVersion.bounds_eq_nil_iff,
    PartialVersion.eq_wildcard_iff_of_read hread, IsUnbounded, or_iff_right hne]
  cases (Operator.split text).1 <;> simp

/-- A text without blanks has the bounds of a single term, or it is empty. -/
theorem Arm.comparators_eq_nil_iff (hblank : ∀ c ∈ text, isBlank c = false) {arm : Arm}
    (h : Arm.read policy text = .ok arm) : arm.comparators = [] ↔ IsUnbounded text := by
  by_cases hnil : text = []
  · subst hnil
    obtain rfl : ⟨[]⟩ = arm := Except.ok.inj h
    exact iff_of_true rfl (.inl rfl)
  obtain ⟨t, ht, rfl⟩ := Arm.exists_term_of_read ⟨hnil, hblank⟩ h
  rw [Arm.ofTerms, List.flatMap_singleton]
  exact Term.bounds_eq_nil_iff ht

end Word

/-! ### Hyphen ranges -/

namespace Clause

variable {first last : Text}

/-- A bare version has a number for its first component. -/
theorem leading_notMem_of_isBareVersion (h : isBareVersion first = true) (rest : Text) :
    PartialVersion.leading (first ++ rest) ∉ PartialVersion.wildcards := by
  obtain ⟨c, more, rfl, hc⟩ := exists_eq_cons_of_isBareVersion h
  have hne : ∀ d : Char, d.isDigit = false → c ≠ d := fun d hd heq => by simp [heq, hd] at hc
  rw [List.cons_append, PartialVersion.leading, Tag.stripPrefix_cons (hne 'v' (by decide)),
    List.takeWhile_cons_of_pos (by simp [hne])]
  simp [PartialVersion.wildcards, hne]

theorem not_isUnbounded_of_isBareVersion (h : isBareVersion first = true) (rest : Text) :
    ¬ IsUnbounded (first ++ rest) := by
  have hleading := leading_notMem_of_isBareVersion h rest
  obtain ⟨c, more, rfl, hc⟩ := exists_eq_cons_of_isBareVersion h
  have hstart : c ∉ Operator.starts := fun hmem => by
    simp [Operator.isDigit_eq_false_of_mem_starts hmem] at hc
  rw [List.cons_append] at hleading ⊢
  rintro (hnil | ⟨hmem, -⟩)
  · exact List.cons_ne_nil _ _ hnil
  · rw [Operator.operand, Operator.split_of_not_mem hstart] at hmem
    exact hleading hmem

/-- A hyphen range of bare versions has a lower bound. -/
theorem comparators_ne_nil_of_hyphen {policy : PrereleasePolicy} {arm : Arm}
    (hfirst : isBareVersion first = true) (hlast : isBareVersion last = true)
    (h : Arm.read policy (first ++ " - ".toList ++ last) = .ok arm) : arm.comparators ≠ [] := by
  have hword := isWord_of_isBareVersion hfirst
  have hpieces : Text.pieces " - ".toList (first ++ " - ".toList ++ last) = [first, last] :=
    Text.pieces_pair (blank_notMem_of_isBareVersion hfirst) (blank_notMem_of_isBareVersion hlast)
  rw [Arm.read, (Text.isSpaced_hyphen hword (isWord_of_isBareVersion hlast)).trim_eq, hpieces] at h
  obtain ⟨p, hp, hrest⟩ := bind_eq_ok_iff.mp h
  obtain ⟨q, -, harm⟩ := bind_eq_ok_iff.mp hrest
  obtain rfl := Except.ok.inj harm
  have hwildcard : p ≠ .wildcard := by
    rw [Text.trim_of_isWord hword] at hp
    rw [Ne, PartialVersion.eq_wildcard_iff_of_read hp, ← List.append_nil first]
    exact leading_notMem_of_isBareVersion hfirst []
  cases p with
  | wildcard => exact absurd rfl hwildcard
  | major | minor | full => exact List.cons_ne_nil _ _

end Clause

/-! ### Specifiers -/

namespace CompatRange

variable {specifier : Text} {c : CompatRange}

/-- **Which alternatives are without bounds.** -/
theorem comparators_eq_nil_iff_of_mem_alternatives (h : ofSpecifier specifier = .ok c)
    {piece : Text} (hpiece : piece ∈ c.alternatives) {policy : PrereleasePolicy} {arm : Arm}
    (hread : Arm.read policy piece = .ok arm) : arm.comparators = [] ↔ IsUnbounded piece := by
  rcases hyphen_or_no_blank_of_mem_alternatives h hpiece with
    ⟨first, last, hfirst, hlast, rfl⟩ | hblank
  · refine iff_of_false (Clause.comparators_ne_nil_of_hyphen hfirst hlast hread) ?_
    rw [List.append_assoc]
    exact Clause.not_isUnbounded_of_isBareVersion hfirst _
  · exact Arm.comparators_eq_nil_iff hblank hread

/-- The wildcard `*` itself is refused. -/
theorem ne_wildcard_of_mem_arms (h : ofSpecifier specifier = .ok c) {arm : Text}
    (harm : arm ∈ c.arms) : arm ≠ ['*'] := by
  rintro rfl
  have hrefused : Clause.toArm ['*'] = .error .wildcard := rfl
  exact absurd (hrefused.symm.trans (toArm_of_mem_arms h harm).2) (by simp)

end CompatRange

/-- An arm without bounds lets every release in. -/
theorem Range.mem_of_comparators_eq_nil {r : Range} {arm : Arm} (harm : arm ∈ r.arms)
    (h : arm.comparators = []) {v : Version} (hv : ¬ v.IsPrerelease) : v ∈ r :=
  ⟨arm, harm, by simp [h], fun hpre => absurd hpre hv⟩

open CompatRange in
/-- **When a specifier has an arm without bounds**: if and only if one of its alternatives is a
wildcard, in whatever spelling, or is empty. No arm is just `*`, but an alternative may mean the
same; and then every release is allowed, as if nothing had been specified. -/
theorem unbounded_arm_iff_wildcard {specifier : Text} {c : CompatRange}
    (h : ofSpecifier specifier = .ok c) : ∃ r, c.range = .ok r ∧ (∀ arm ∈ c.arms, arm ≠ ['*']) ∧
      ((∀ arm ∈ r.arms, arm.comparators ≠ [] ∧ arm.write ≠ ['*']) ↔
        ∀ piece ∈ c.alternatives, ¬ IsUnbounded piece) ∧
      ((∃ piece ∈ c.alternatives, IsUnbounded piece) →
        ∀ v : Version, ¬ v.IsPrerelease → v ∈ r) := by
  have hne := arms_ne_nil_of_ofSpecifier h
  obtain ⟨r, hr⟩ := exists_read_composite hne fun arm harm =>
    (Obtained.ofSpecifier h).exists_read .named harm
  have hrange : c.range = .ok r := mapError_eq_ok_iff.mpr hr
  have hread := map_read_alternatives hne hrange
  refine ⟨r, hrange, fun arm harm => ne_wildcard_of_mem_arms h harm, ⟨?_, ?_⟩, ?_⟩
  · intro hbounded piece hpiece hunbounded
    obtain ⟨arm, harm, hok⟩ := exists_mem_of_mem_read hread hpiece
    exact (hbounded arm harm).1
      ((comparators_eq_nil_iff_of_mem_alternatives h hpiece hok).mpr hunbounded)
  · intro hbounded arm harm
    obtain ⟨piece, hpiece, hok⟩ := exists_mem_of_mem_results hread harm
    have hnil : arm.comparators ≠ [] := fun hnil =>
      hbounded piece hpiece ((comparators_eq_nil_iff_of_mem_alternatives h hpiece hok).mp hnil)
    exact ⟨hnil, fun hwrite => hnil (Arm.write_eq_wildcard_iff.mp hwrite)⟩
  · rintro ⟨piece, hpiece, hunbounded⟩ v hv
    obtain ⟨arm, harm, hok⟩ := exists_mem_of_mem_read hread hpiece
    exact Range.mem_of_comparators_eq_nil harm
      ((comparators_eq_nil_iff_of_mem_alternatives h hpiece hok).mpr hunbounded) hv

open CompatRange in
/-- A bound and a wildcard behind an operator that leaves nothing over. -/
theorem unbounded_arm_iff_wildcard_list :
    let c : CompatRange := ⟨["^1.6".toList, ">*".toList]⟩
    ofSpecifier "1.6, >*".toList = .ok c ∧ ∃ r, c.range = .ok r ∧ (∀ arm ∈ c.arms, arm ≠ ['*']) ∧
      ((∀ arm ∈ r.arms, arm.comparators ≠ [] ∧ arm.write ≠ ['*']) ↔
        ∀ piece ∈ c.alternatives, ¬ IsUnbounded piece) ∧
      ((∃ piece ∈ c.alternatives, IsUnbounded piece) →
        ∀ v : Version, ¬ v.IsPrerelease → v ∈ r) :=
  ⟨rfl, @unbounded_arm_iff_wildcard "1.6, >*".toList _ rfl⟩

open CompatRange in
/-- The wildcard `x` is accepted as an arm, and its range is the one of every release. -/
theorem exists_unbounded_wildcard :
    ∃ c, ofSpecifier ['x'] = .ok c ∧ c.range = .ok Range.any ∧ Range.any.write = ['*'] :=
  ⟨⟨[['x']]⟩, rfl, rfl, rfl⟩

end JuliaReleases
