import JuliaReleases.Proofs.CompatRange.Composite
import JuliaReleases.Proofs.Text.Occurrence

/-!
# Clauses with `||` in them

Every clause of a specifier becomes one arm, and the arms are kept as texts. Nothing refuses a
clause such as `1||2`: it has no blanks, and the range notation knows it. So an arm may itself be
several alternatives, `JuliaReleases.CompatRange.alternatives`, and where the arms are put together
with `||` between them, these are what is found again: they are the arms of the range
(`JuliaReleases.CompatRange.map_read_alternatives`), and they are read back as the arms of the
composite text, except for empty ones (`JuliaReleases.CompatRange.ofComposite_composite`).

By `JuliaReleases.clause_is_arm_iff` the clauses are in step with the arms of the range, and the
composite text is read back, **if and only if** there is no `||` in the specifier. The reason that
the whole specifier can be asked is in `JuliaReleases.CompatRange.exists_arm_infix_iff`: neither
normalizing a clause nor translating it makes an occurrence or removes one.
-/

namespace JuliaReleases

/-! ### From a specifier to its arms -/

namespace Clause

variable {clause arm text : Text}

/-- An operator at the front does not matter. -/
theorem infix_operator_append_iff (op : Operator) (text : Text) :
    "||".toList <:+: op.write ++ text ↔ "||".toList <:+: text :=
  Text.infix_append_iff_of_disjoint
    (fun _ hc => Operator.notMem_of_mem_write (by simp [Operator.starts]) hc) (by decide)

theorem infix_closeOperator_iff :
    "||".toList <:+: closeOperator clause ↔ "||".toList <:+: clause := by
  rcases closeOperator_cases clause with hclose | ⟨op, rest, rfl, hclose⟩
  · rw [hclose]
  · have hblank : "||".toList <:+: [' '] ++ rest ↔ "||".toList <:+: rest :=
      Text.infix_append_iff_of_disjoint (by simp) (by decide)
    rw [hclose, infix_operator_append_iff, infix_operator_append_iff, ← List.singleton_append,
      hblank]

/-- Translating a clause makes no occurrence and removes none. -/
theorem StandsFor.infix_iff (h : StandsFor clause arm) :
    "||".toList <:+: arm ↔ "||".toList <:+: clause := by
  cases h with
  | hyphen => rfl
  | single =>
    unfold withCaret
    split
    · exact infix_operator_append_iff .caret clause
    · rfl

/-- A clause with blanks is a hyphen range. -/
theorem StandsFor.hyphen_or_notMem (h : StandsFor clause arm) :
    (∃ first last, isBareVersion first = true ∧ isBareVersion last = true ∧
      clause = first ++ " - ".toList ++ last) ∨ ' ' ∉ clause := by
  cases h with
  | hyphen hfirst hlast hclause => exact .inl ⟨_, _, hfirst, hlast, hclause⟩
  | single _ hblank _ _ => exact .inr hblank

end Clause

namespace Specifier

variable {clause specifier text : Text}

/-- A sign is spelled out as an operator. -/
theorem exists_spell_cons_sign {c : Char} (hc : c = '≥' ∨ c = '≤') (rest : Text) :
    ∃ start ∈ Operator.starts, spell (c :: rest) = start :: (['='] ++ spell rest) := by
  rcases hc with rfl | rfl
  · exact ⟨'>', by decide, rfl⟩
  · exact ⟨'<', by decide, rfl⟩

/-- The signs that are spelled out do not matter. -/
theorem infix_spell_iff : "||".toList <:+: spell text ↔ "||".toList <:+: text := by
  have hout : ∀ c ∈ '≥' :: '≤' :: Operator.starts, c ∉ "||".toList := by
    simp [Operator.starts]
  induction text using Text.induction_at (p := fun c => c = '≥' ∨ c = '≤') with
  | free text hfree =>
    rw [spell_of_notMem (fun h => hfree _ h (.inl rfl)) fun h => hfree _ h (.inr rfl)]
  | found front c rest hc hfront hrest =>
    obtain ⟨start, hstart, hspell⟩ := exists_spell_cons_sign hc rest
    have hcout : c ∉ "||".toList := hout c (by rcases hc with rfl | rfl <;> simp)
    have hstartout : start ∉ "||".toList := hout start (by simp [hstart])
    have hequals : "||".toList <:+: ['='] ++ spell rest ↔ "||".toList <:+: spell rest :=
      Text.infix_append_iff_of_disjoint (by simp) (by decide)
    rw [spell_append, hspell, Text.infix_append_cons_iff hstartout (by decide), hequals,
      Text.infix_append_cons_iff hcout (by decide)]
    exact or_congr hfront hrest

theorem infix_normalizeClause_iff :
    "||".toList <:+: normalizeClause clause ↔ "||".toList <:+: clause := by
  have hword : Text.IsWord "||".toList := by decide
  rw [normalizeClause_eq, Text.infix_words_iff hword.2 hword.1, infix_spell_iff]

/-- What occurs in a specifier occurs in one of its clauses. -/
theorem exists_clause_infix_iff :
    (∃ clause ∈ allClauses specifier, "||".toList <:+: clause) ↔ "||".toList <:+: specifier := by
  have hjoined : [','].intercalate (specifier.splitOn ',') = specifier :=
    List.intercalate_splitOn ','
  conv_rhs => rw [← hjoined]
  rw [Text.infix_intercalate_iff (by decide) (by decide)]
  simp only [allClauses, List.mem_map, exists_exists_and_eq_and, infix_normalizeClause_iff]

end Specifier

/-! ### From the arms to the range -/

namespace Range

variable {policy : PrereleasePolicy} {text : Text} {r : Range}

/-- Each piece of the text of a range is a range of one arm. -/
theorem exists_read_piece (h : Range.read policy text = .ok r) {piece : Text}
    (hpiece : piece ∈ Text.pieces "||".toList text) :
    ∃ arm, Range.read policy piece = .ok ⟨[arm], policy⟩ := by
  obtain ⟨arm, harm⟩ := exists_read_iff_pieces.mp ⟨r, h⟩ piece hpiece
  refine ⟨arm, ?_⟩
  rw [read_of_no_mark policy (Text.not_infix_of_mem_pieces (by decide) hpiece), harm]
  rfl

end Range

namespace CompatRange

open Specifier

variable {specifier arm : Text} {c : CompatRange}

/-- The texts between the marks `||`, arm by arm. -/
def alternatives (c : CompatRange) : List Text :=
  c.arms.flatMap (Text.pieces "||".toList)

/-- An arm of a specifier has blanks in a hyphen range only. -/
theorem standsFor_of_mem_arms (h : ofSpecifier specifier = .ok c) (harm : arm ∈ c.arms) :
    Clause.StandsFor arm arm := by
  obtain ⟨hnormal, hself⟩ := toArm_of_mem_arms h harm
  obtain ⟨hstands, -⟩ := Clause.toArm_eq_ok_iff.mp hself
  rw [hnormal.spaced.trim_eq] at hstands
  rwa [hstands.closeOperator_eq] at hstands

/-- **An arm has alternatives** if and only if the specifier has. -/
theorem exists_arm_infix_iff (h : ofSpecifier specifier = .ok c) :
    (∃ arm ∈ c.arms, "||".toList <:+: arm) ↔ "||".toList <:+: specifier := by
  have hread := ofSpecifier_eq_ok_iff.mp h
  have hkeeps : ∀ {clause arm}, clause ∈ allClauses specifier → Clause.toArm clause = .ok arm →
      ("||".toList <:+: arm ↔ "||".toList <:+: clause) := by
    intro clause arm hclause harm
    obtain ⟨hstands, -⟩ := Clause.toArm_eq_ok_iff.mp harm
    rw [(isNormal_of_mem_allClauses hclause).spaced.trim_eq] at hstands
    rw [hstands.infix_iff, Clause.infix_closeOperator_iff]
  rw [← exists_clause_infix_iff]
  constructor
  · rintro ⟨arm, harm, hmem⟩
    obtain ⟨clause, hclause, hok⟩ := exists_mem_of_mem_results hread harm
    exact ⟨clause, hclause, (hkeeps hclause hok).mp hmem⟩
  · rintro ⟨clause, hclause, hmem⟩
    obtain ⟨arm, harm, hok⟩ := exists_mem_of_mem_read hread hclause
    exact ⟨arm, harm, (hkeeps hclause hok).mpr hmem⟩

/-! ### Alternatives and arms -/

/-- Without the mark in any arm, the alternatives are the arms. -/
theorem alternatives_eq_arms (h : ∀ arm ∈ c.arms, ¬ "||".toList <:+: arm) :
    c.alternatives = c.arms := by
  have hsingle : ∀ arm ∈ c.arms, Text.pieces "||".toList arm = [arm] := fun arm harm =>
    (Text.pieces_eq_singleton_iff (by decide)).mpr (h arm harm)
  rw [alternatives, List.flatMap_congr hsingle]
  exact List.flatMap_singleton' c.arms

theorem not_infix_of_mem_alternatives {piece : Text} (h : piece ∈ c.alternatives) :
    ¬ "||".toList <:+: piece := by
  obtain ⟨arm, -, hpiece⟩ := List.mem_flatMap.mp h
  exact Text.not_infix_of_mem_pieces (by decide) hpiece

/-- There are at least as many alternatives as arms. -/
theorem length_arms_le (arms : List Text) :
    arms.length ≤ (arms.flatMap (Text.pieces "||".toList)).length := by
  induction arms with
  | nil => exact le_rfl
  | cons arm arms ih =>
    have hpos := List.length_pos_of_ne_nil (Text.pieces_ne_nil "||".toList arm)
    rw [List.flatMap_cons, List.length_append, List.length_cons]
    omega

/-- There are just as many if and only if no arm has the mark. -/
theorem length_alternatives_eq_iff (arms : List Text) :
    (arms.flatMap (Text.pieces "||".toList)).length = arms.length ↔
      ∀ arm ∈ arms, ¬ "||".toList <:+: arm := by
  induction arms with
  | nil => exact iff_of_true rfl (by simp)
  | cons arm arms ih =>
    have hpos := List.length_pos_of_ne_nil (Text.pieces_ne_nil "||".toList arm)
    have hle := length_arms_le arms
    rw [List.forall_mem_cons, ← ih, ← Text.length_pieces_eq_one_iff (by decide), List.flatMap_cons,
      List.length_append, List.length_cons]
    omega

/-- **The arms of the range are those of the alternatives**, in order. -/
theorem map_read_alternatives (hne : c.arms ≠ []) {r : Range} (h : c.range = .ok r) :
    c.alternatives.map (Arm.read .named) = r.arms.map .ok := by
  have hpieces : (Text.pieces "||".toList c.composite).map Text.trim =
      c.alternatives.map Text.trim :=
    Text.map_trim_pieces_intercalate (by decide) (by decide) (by decide) hne
  obtain ⟨arms, harms, hr⟩ := bind_eq_ok_iff.mp (mapError_eq_ok_iff.mp h)
  obtain rfl := Except.ok.inj hr
  -- Blanks around an arm do not count.
  rw [← Range.mapM_read_trim, hpieces, Range.mapM_read_trim] at harms
  exact mapM_eq_ok_iff.mp harms

theorem length_arms_of_range (hne : c.arms ≠ []) {r : Range} (h : c.range = .ok r) :
    r.arms.length = c.alternatives.length := by
  have hlength := congrArg List.length (map_read_alternatives hne h)
  rw [List.length_map, List.length_map] at hlength
  exact hlength.symm

/-! ### Reading the composite text back -/

/-- **An alternative has no blanks**, unless it is a hyphen range. -/
theorem hyphen_or_no_blank_of_mem_alternatives (h : ofSpecifier specifier = .ok c) {piece : Text}
    (hpiece : piece ∈ c.alternatives) :
    (∃ first last, Clause.isBareVersion first = true ∧ Clause.isBareVersion last = true ∧
      piece = first ++ " - ".toList ++ last) ∨ ∀ ch ∈ piece, isBlank ch = false := by
  obtain ⟨arm, harm, hmem⟩ := List.mem_flatMap.mp hpiece
  have hspaced := (toArm_of_mem_arms h harm).1.spaced
  have hpart := (Text.infix_of_mem_pieces (by decide) hmem).subset
  obtain ⟨first, last, hfirst, hlast, harm⟩ | hblank :=
    (standsFor_of_mem_arms h harm).hyphen_or_notMem
  · -- A hyphen range is not cut.
    have hbar : '|' ∉ arm := by
      rw [harm, List.mem_append, List.mem_append, not_or, not_or]
      exact ⟨⟨Clause.bar_notMem_of_isBareVersion hfirst, by decide⟩,
        Clause.bar_notMem_of_isBareVersion hlast⟩
    rw [Text.pieces_of_not_mem (c := '|') (by decide) hbar, List.mem_singleton] at hmem
    exact .inl ⟨first, last, hfirst, hlast, hmem.trans harm⟩
  · refine .inr fun ch hch => ?_
    by_contra hch'
    exact hblank (hspaced.eq_of_isBlank (hpart hch) (by simpa using hch') ▸ hpart hch)

/-- No blank is at either end of an alternative. -/
theorem trim_of_mem_alternatives (h : ofSpecifier specifier = .ok c) {piece : Text}
    (hpiece : piece ∈ c.alternatives) : Text.trim piece = piece := by
  rcases hyphen_or_no_blank_of_mem_alternatives h hpiece with
    ⟨first, last, hfirst, hlast, rfl⟩ | hblank
  · exact (Text.isSpaced_hyphen (Clause.isWord_of_isBareVersion hfirst)
      (Clause.isWord_of_isBareVersion hlast)).trim_eq
  · exact Text.trim_eq_self (fun ch hch => hblank ch (List.mem_of_mem_head? hch))
      fun ch hch => hblank ch (List.mem_of_mem_getLast? hch)

/-- **What the composite text of a specifier is read as**: its alternatives, except for empty
ones. -/
theorem ofComposite_composite (h : ofSpecifier specifier = .ok c) :
    ofComposite c.composite = .ok ⟨c.alternatives.filter fun piece => !piece.isEmpty⟩ := by
  have hpieces : (Text.pieces "||".toList c.composite).map Text.trim = c.alternatives := by
    have htrim : (Text.pieces "||".toList c.composite).map Text.trim =
        c.alternatives.map Text.trim :=
      Text.map_trim_pieces_intercalate (by decide) (by decide) (by decide)
        (arms_ne_nil_of_ofSpecifier h)
    rw [htrim, List.map_congr_left fun piece hpiece => trim_of_mem_alternatives h hpiece]
    exact List.map_id' _
  rw [ofComposite_eq_ok_iff, writtenArms, hpieces]
  refine ⟨rfl, fun piece hpiece => ?_⟩
  obtain ⟨arm, harm, hmem⟩ := List.mem_flatMap.mp (List.mem_of_mem_filter hpiece)
  obtain ⟨r, hr⟩ := (Obtained.ofSpecifier h).exists_read .named harm
  obtain ⟨_, hread⟩ := Range.exists_read_piece hr hmem
  exact ⟨_, hread⟩

/-- The arms are read back if and only if none of them has the mark. -/
theorem filter_alternatives_eq_arms_iff (h : ofSpecifier specifier = .ok c) :
    (c.alternatives.filter fun piece => !piece.isEmpty) = c.arms ↔
      ∀ arm ∈ c.arms, ¬ "||".toList <:+: arm := by
  constructor
  · intro heq arm harm
    rw [← heq] at harm
    exact not_infix_of_mem_alternatives (List.mem_of_mem_filter harm)
  · intro hnone
    rw [alternatives_eq_arms hnone, List.filter_eq_self]
    intro arm harm
    simpa using (standsFor_of_mem_arms h harm).ne_nil

end CompatRange

open CompatRange in
/-- **Clauses are in step with the arms of the range** if and only if there is no `||` in the
specifier, and then the composite text is read back. In general the range has an arm for each
alternative, and the composite text is read as the alternatives that are not empty. -/
theorem clause_is_arm_iff {specifier : Text} {c : CompatRange}
    (h : ofSpecifier specifier = .ok c) : ∃ r, c.range = .ok r ∧
      r.arms.length = c.alternatives.length ∧
      ofComposite c.composite = .ok ⟨c.alternatives.filter fun piece => !piece.isEmpty⟩ ∧
      (r.arms.length = c.arms.length ↔ ¬ "||".toList <:+: specifier) ∧
      (ofComposite c.composite = .ok c ↔ ¬ "||".toList <:+: specifier) := by
  have hne := arms_ne_nil_of_ofSpecifier h
  obtain ⟨r, hr⟩ := exists_read_composite hne fun arm harm =>
    (Obtained.ofSpecifier h).exists_read .named harm
  have hrange : c.range = .ok r := mapError_eq_ok_iff.mpr hr
  have hlength := length_arms_of_range hne hrange
  have hread := ofComposite_composite h
  have hmark : ¬ "||".toList <:+: specifier ↔ ∀ arm ∈ c.arms, ¬ "||".toList <:+: arm := by
    rw [← exists_arm_infix_iff h]
    push Not
    rfl
  refine ⟨r, hrange, hlength, hread, ?_, ?_⟩
  · rw [hlength, hmark]
    exact length_alternatives_eq_iff c.arms
  · rw [hread, hmark, ← filter_alternatives_eq_arms_iff h, Except.ok.injEq]
    exact ⟨congrArg arms, congrArg mk⟩

open CompatRange in
/-- A hyphen range and a bare version, with a comma between them. -/
theorem clause_is_arm_iff_list :
    let c : CompatRange := ⟨["1.2 - 1.4".toList, "^1.6".toList]⟩
    ofSpecifier "1.2  - 1.4, 1.6".toList = .ok c ∧ ∃ r, c.range = .ok r ∧
      r.arms.length = c.alternatives.length ∧
      ofComposite c.composite = .ok ⟨c.alternatives.filter fun piece => !piece.isEmpty⟩ ∧
      (r.arms.length = c.arms.length ↔ ¬ "||".toList <:+: "1.2  - 1.4, 1.6".toList) ∧
      (ofComposite c.composite = .ok c ↔ ¬ "||".toList <:+: "1.2  - 1.4, 1.6".toList) :=
  ⟨rfl, @clause_is_arm_iff "1.2  - 1.4, 1.6".toList _ rfl⟩

open CompatRange in
/-- The clause `1||2` is accepted as one arm, but its range has two, and two arms are read back. -/
theorem not_clause_is_arm_two_alternatives :
    ∃ c, ofSpecifier "1||2".toList = .ok c ∧
      (∃ r, c.range = .ok r ∧ r.arms.length ≠ c.arms.length) ∧
      ofComposite c.composite ≠ .ok c := by
  refine ⟨⟨["1||2".toList]⟩, rfl, ⟨_, rfl, by decide⟩, ?_⟩
  have hread : ofComposite "1||2".toList = .ok ⟨["1".toList, "2".toList]⟩ := rfl
  have hcomposite : composite ⟨["1||2".toList]⟩ = "1||2".toList := rfl
  rw [hcomposite, hread, Ne, Except.ok.injEq]
  decide

end JuliaReleases
