import JuliaReleases.Proofs.CompatRange.Specifier
import JuliaReleases.Proofs.Range.HyphenRange
import JuliaReleases.Proofs.Text.Occurrence

/-!
# Which hyphens make a hyphen range

Versions may contain hyphens themselves, so in a clause the blanks decide what a hyphen between two
bare versions is:

* with blanks on both sides it makes a hyphen range of them, whatever blanks they are;
* with a blank on one side only the clause is refused;
* without blanks it belongs to a version: all of the clause is one bare version, with a prerelease
  that may well be malformed, and gets a caret.

Normalizing brings every clause of this kind to one of four forms, and the bare versions, which have
no blanks, cannot add to the hyphens that the checks look for. The three cases are put together in
`JuliaReleases.hyphen_goes_by_blanks`.
-/

namespace JuliaReleases

/-! ### Words and blanks -/

namespace Text

theorem words_append_blanks_append {word blanks : Text} (hword : IsWord word) (hne : blanks ≠ [])
    (hblanks : ∀ c ∈ blanks, isBlank c = true) (rest : Text) :
    words (word ++ (blanks ++ rest)) = word :: words rest := by
  rw [← List.append_assoc, words_separated_append hblanks hne, words_of_isWord hword]
  rfl

end Text

/-! ### Bare versions -/

namespace Clause

variable {clause arm text first last : Text}

theorem not_mark_eq_false_iff {c : Char} :
    (!(c == '-' || c == '+')) = false ↔ c = '-' ∨ c = '+' := by
  rw [Bool.not_eq_false', Bool.or_eq_true, beq_iff_eq, beq_iff_eq]

/-- **The two parts of a bare version**: a dotted number, and perhaps a suffix behind a mark. -/
theorem isBareVersion_iff : isBareVersion text = true ↔ ∃ number rest, text = number ++ rest ∧
    isDottedNumber number = true ∧ (rest = [] ∨ ∃ mark suffix, rest = mark :: suffix ∧
      (mark = '-' ∨ mark = '+') ∧ isSuffix suffix = true) := by
  constructor
  · intro h
    refine ⟨_, _, (List.takeWhile_append_dropWhile
      (p := fun c => !(c == '-' || c == '+')) (l := text)).symm, ?_⟩
    have hmark := List.head?_dropWhile_not (fun c => !(c == '-' || c == '+')) text
    simp only [isBareVersion, Bool.and_eq_true] at h
    obtain ⟨hdotted, hsuffix⟩ := h
    refine ⟨hdotted, ?_⟩
    revert hsuffix hmark
    cases text.dropWhile fun c => !(c == '-' || c == '+') with
    | nil => exact fun _ _ => .inl rfl
    | cons mark suffix =>
      exact fun hmark hsuffix => .inr ⟨mark, suffix, rfl, not_mark_eq_false_iff.mp hmark, hsuffix⟩
  · rintro ⟨number, rest, rfl, hdotted, hrest⟩
    obtain ⟨-, -, -, -, hnumber⟩ := isDottedNumber_iff.mp hdotted
    have hmarks : ∀ c ∈ number, (!(c == '-' || c == '+')) = true := by
      intro c hc
      rcases hnumber c hc with hdigit | rfl
      · by_contra hmark
        rcases not_mark_eq_false_iff.mp (Bool.eq_false_iff.mpr hmark) with rfl | rfl <;>
          exact absurd hdigit (by decide)
      · rfl
    simp only [isBareVersion, Bool.and_eq_true]
    rw [List.takeWhile_append_of_pos hmarks, List.dropWhile_append_of_pos hmarks]
    rcases hrest with rfl | ⟨mark, suffix, rfl, hmark, hsuffix⟩
    · simpa using hdotted
    · have hstop := not_mark_eq_false_iff.mpr hmark
      simp only [List.takeWhile_cons, List.dropWhile_cons, hstop, Bool.false_eq_true, if_false,
        List.append_nil]
      exact ⟨hdotted, hsuffix⟩

theorem isSuffix_iff : isSuffix text = true ↔
    text ≠ [] ∧ ∀ c ∈ text, isIdentifierChar c = true ∨ c = '.' ∨ c = '+' := by
  simp only [isSuffix, Bool.and_eq_true, Bool.not_eq_true', List.isEmpty_eq_false_iff,
    List.all_eq_true, Bool.or_eq_true, beq_iff_eq, isIdentifierChar]
  refine and_congr_right fun _ => forall₂_congr fun c _ => ?_
  tauto

/-- **A hyphen between two bare versions** makes the second one a suffix of the first. -/
theorem isBareVersion_append_hyphen (hfirst : isBareVersion first = true)
    (hlast : isBareVersion last = true) : isBareVersion (first ++ '-' :: last) = true := by
  have hsuffix : isSuffix last = true := isSuffix_iff.mpr
    ⟨(isWord_of_isBareVersion hlast).1, fun _ hc => char_of_isBareVersion hlast hc⟩
  obtain ⟨number, rest, rfl, hdotted, hrest⟩ := isBareVersion_iff.mp hfirst
  refine isBareVersion_iff.mpr ⟨number, rest ++ '-' :: last, by simp, hdotted, .inr ?_⟩
  rcases hrest with rfl | ⟨mark, suffix, rfl, hmark, hchars⟩
  · exact ⟨'-', last, rfl, .inl rfl, hsuffix⟩
  · refine ⟨mark, suffix ++ '-' :: last, rfl, hmark, ?_⟩
    rw [isSuffix_iff] at hchars hsuffix ⊢
    refine ⟨by simp, fun c hc => ?_⟩
    rcases List.mem_append.mp hc with hc | hc
    · exact hchars.2 c hc
    · rcases List.mem_cons.mp hc with rfl | hc
      · exact .inl (by decide)
      · exact hsuffix.2 c hc

/-! ### Clauses of one and of two words -/

/-- As a range, a bare version is a partial version. -/
theorem exists_read_iff_of_isBareVersion {policy : PrereleasePolicy}
    (h : isBareVersion text = true) :
    (∃ r, Range.read policy text = .ok r) ↔ ∃ p, PartialVersion.read text = .ok p := by
  have htoken := isToken_of_isBareVersion h
  constructor
  · rintro ⟨r, hr⟩
    have hoperand : Operator.operand text = text := by
      obtain ⟨c, rest, rfl, hc⟩ := exists_eq_cons_of_isBareVersion h
      refine congrArg Prod.snd (Operator.split_of_not_mem (fun hmem => ?_) rest)
      simp [Operator.isDigit_eq_false_of_mem_starts hmem] at hc
    exact hoperand ▸ htoken.exists_read_operand hr
  · rintro ⟨p, hp⟩
    exact ⟨_, htoken.read_bare hp⟩

/-- **A hyphen range is a range** if and only if both of its ends are. -/
theorem exists_read_hyphen_iff {policy : PrereleasePolicy} (hfirst : isBareVersion first = true)
    (hlast : isBareVersion last = true) :
    (∃ r, Range.read policy (first ++ " - ".toList ++ last) = .ok r) ↔
      (∃ r, Range.read policy first = .ok r) ∧ ∃ r, Range.read policy last = .ok r := by
  rw [exists_read_iff_of_isBareVersion hfirst, exists_read_iff_of_isBareVersion hlast]
  simp only [(isToken_of_isBareVersion hfirst).read_hyphen_eq_ok_iff
    (isToken_of_isBareVersion hlast)]
  constructor
  · rintro ⟨-, p, q, hp, hq, rfl⟩
    exact ⟨⟨p, hp⟩, q, hq⟩
  · rintro ⟨⟨p, hp⟩, q, hq⟩
    exact ⟨_, p, q, hp, hq, rfl⟩

/-- A hyphen range of two bare versions is its own arm. -/
theorem toArm_hyphen_eq_ok_iff (hfirst : isBareVersion first = true)
    (hlast : isBareVersion last = true) : toArm (first ++ " - ".toList ++ last) = .ok arm ↔
      arm = first ++ " - ".toList ++ last ∧ (∃ r, Range.read .named first = .ok r) ∧
        ∃ r, Range.read .named last = .ok r := by
  have hspaced := Text.isSpaced_hyphen (isWord_of_isBareVersion hfirst)
    (isWord_of_isBareVersion hlast)
  obtain ⟨c, rest, hcons, hc⟩ := exists_eq_cons_of_isBareVersion hfirst
  have hclose : closeOperator (first ++ " - ".toList ++ last) = first ++ " - ".toList ++ last := by
    rw [hcons]
    exact closeOperator_of_isDigit hc _
  rw [toArm_eq_ok_iff, hspaced.trim_eq, hclose, ← exists_read_hyphen_iff hfirst hlast]
  constructor
  · rintro ⟨hstands, hr⟩
    generalize hclause : first ++ " - ".toList ++ last = clause at *
    cases hstands with
    | hyphen => exact ⟨rfl, hr⟩
    | single _ hblank _ _ => exact absurd (by simp [← hclause]) hblank
  · rintro ⟨rfl, hr⟩
    exact ⟨.hyphen hfirst hlast rfl, hr⟩

/-- A bare version gets a caret. -/
theorem toArm_bare_eq_ok_iff (h : isBareVersion text = true) : toArm text = .ok arm ↔
    arm = Operator.caret.write ++ text ∧ ∃ r, Range.read .named arm = .ok r := by
  obtain ⟨c, rest, hcons, hc⟩ := exists_eq_cons_of_isBareVersion h
  have hclose : closeOperator text = text := hcons ▸ closeOperator_of_isDigit hc rest
  have hcaret : withCaret text = Operator.caret.write ++ text := if_pos h
  rw [toArm_eq_ok_iff, Text.trim_of_isWord (isWord_of_isBareVersion h), hclose]
  refine and_congr_left fun _ => ⟨fun hstands => ?_, fun harm => ?_⟩
  · cases hstands with
    | hyphen _ _ htext => exact absurd (by rw [htext]; simp) (blank_notMem_of_isBareVersion h)
    | single => exact hcaret
  · rw [harm, ← hcaret]
    refine .single (hcons ▸ List.cons_ne_nil c rest) (blank_notMem_of_isBareVersion h) ?_ ?_
    · rintro rfl
      exact absurd h (by decide)
    · rintro ⟨more, hmore⟩
      rw [hcons] at hmore
      obtain rfl : '<' = c := (List.cons.inj hmore).1
      exact absurd hc (by decide)

theorem contains_iff {part : Text} (hne : part ≠ []) :
    contains part text = true ↔ part <:+: text := by
  have hpos := List.length_pos_of_ne_nil (Text.pieces_ne_nil part text)
  rw [contains, decide_eq_true_eq, ← not_iff_not, ← Text.length_pieces_eq_one_iff hne]
  omega

/-- **A hyphen with a blank on one side only** is refused: there are two words, the first one starts
with a digit, and the hyphen stands next to the blank. -/
theorem toArm_of_unbalanced {c : Char} {rest : Text} (hc : c.isDigit = true)
    (hfirst : Text.IsWord (c :: rest)) (hlast : Text.IsWord last)
    (hside : "- ".toList <:+: c :: rest ++ ' ' :: last ∨
      " -".toList <:+: c :: rest ++ ' ' :: last) :
    toArm (c :: rest ++ ' ' :: last) = .error .unbalancedHyphen := by
  have hwords : [' '].intercalate [c :: rest, last] = c :: rest ++ ' ' :: last := by
    simp [List.intercalate_cons_cons]
  have htrim : Text.trim (c :: rest ++ ' ' :: last) = c :: rest ++ ' ' :: last := by
    rw [← hwords]
    exact Text.trim_intercalate (by simpa using ⟨hfirst, hlast⟩)
  have hclose := closeOperator_of_isDigit hc (rest ++ ' ' :: last)
  have hends : hyphenEnds (c :: rest ++ ' ' :: last) = .ok none := by
    rw [hyphenEnds_eq_ok_none_iff, Text.pieces_eq_singleton_iff (by decide)]
    exact Text.not_hyphen_infix_two_words (Text.space_notMem_of_isWord hfirst)
      (Text.space_notMem_of_isWord hlast)
  have hnot : ∀ d more, d.isDigit = false → c :: rest ++ ' ' :: last ≠ d :: more := by
    rintro d more hd heq
    rw [(List.cons.inj heq).1, hd] at hc
    exact absurd hc (by decide)
  have hle : Operator.le.write.isPrefixOf (c :: rest ++ ' ' :: last) = false := by
    refine Bool.eq_false_iff.mpr fun hprefix => ?_
    obtain ⟨more, hmore⟩ := List.isPrefixOf_iff_prefix.mp hprefix
    exact hnot '<' _ (by decide) hmore.symm
  have hcontains : (contains "- ".toList (c :: rest ++ ' ' :: last) ||
      contains " -".toList (c :: rest ++ ' ' :: last)) = true := by
    rw [Bool.or_eq_true, contains_iff (by decide), contains_iff (by decide)]
    exact hside
  rw [List.cons_append] at *
  simp only [toArm, htrim, hclose, hends, hle, hcontains, if_neg (List.cons_ne_nil c _),
    if_neg (hnot '*' [] (by decide))]
  rfl

end Clause

/-! ### Specifiers of one clause -/

namespace CompatRange

open Specifier

variable {specifier clause : Text} {c : CompatRange}

theorem ofSpecifier_eq_ok_iff_of_single (h : allClauses specifier = [clause]) :
    ofSpecifier specifier = .ok c ↔ ∃ arm, Clause.toArm clause = .ok arm ∧ c = ⟨[arm]⟩ := by
  rw [ofSpecifier_eq_ok_iff, h, List.map_singleton]
  constructor
  · intro harms
    obtain ⟨arm, hc, harm⟩ := List.map_eq_singleton_iff.mp harms.symm
    exact ⟨arm, harm.symm, by rw [← hc]⟩
  · rintro ⟨arm, harm, rfl⟩
    rw [harm, List.map_singleton]

theorem ofSpecifier_of_single_error (h : allClauses specifier = [clause])
    (hne : Text.trim specifier ≠ []) {fault : ClauseFault}
    (hfault : Clause.toArm clause = .error fault) :
    ofSpecifier specifier = .error ⟨specifier, .clause clause fault⟩ := by
  refine ofSpecifier_eq_error_iff.mpr (.inr ⟨[], clause, [], fault, ?_, by simp, hfault, rfl⟩)
  rw [clauses_of_not_blank hne, h]
  rfl

end CompatRange

/-! ### A hyphen between two bare versions -/

section Hyphen

open Specifier

variable {first last before after : Text} (hfirst : Clause.isBareVersion first = true)
  (hlast : Clause.isBareVersion last = true) (hbefore : ∀ c ∈ before, isBlank c = true)
  (hafter : ∀ c ∈ after, isBlank c = true)
include hfirst hlast hbefore hafter

/-- Blanks and bare versions have neither commas nor signs to be spelled out. -/
theorem notMem_hyphen_of_not_char {c : Char} (hblank : isBlank c = false)
    (hchar : isIdentifierChar c = false ∧ c ≠ '.' ∧ c ≠ '+') :
    c ∉ first ++ before ++ '-' :: (after ++ last) := by
  have hbare : ∀ {text : Text}, Clause.isBareVersion text = true → c ∉ text := by
    intro text htext hmem
    rcases Clause.char_of_isBareVersion htext hmem with h | h | h
    · simp [hchar.1] at h
    · exact hchar.2.1 h
    · exact hchar.2.2 h
  have hspace : ∀ {blanks : Text}, (∀ c ∈ blanks, isBlank c = true) → c ∉ blanks := by
    intro blanks hblanks hmem
    simp [hblanks c hmem] at hblank
  have hhyphen : c ≠ '-' := by
    rintro rfl
    exact absurd hchar.1 (by decide)
  simp [hbare hfirst, hbare hlast, hspace hbefore, hspace hafter, hhyphen]

/-- Only the words of the specifier count. -/
theorem allClauses_hyphen : allClauses (first ++ before ++ '-' :: (after ++ last)) =
    [[' '].intercalate (Text.words (first ++ before ++ '-' :: (after ++ last)))] := by
  have hnot := @notMem_hyphen_of_not_char _ _ _ _ hfirst hlast hbefore hafter
  rw [allClauses, List.splitOn_eq_singleton (hnot (by decide) (by decide)), List.map_singleton,
    normalizeClause_eq, spell_of_notMem (hnot (by decide) (by decide))
      (hnot (by decide) (by decide))]

/-- **Blanks on both sides**: the clause is a hyphen range. -/
theorem ofSpecifier_hyphen_blanks (hne : before ≠ []) (hne' : after ≠ []) {c : CompatRange} :
    CompatRange.ofSpecifier (first ++ before ++ '-' :: (after ++ last)) = .ok c ↔
      c = ⟨[first ++ " - ".toList ++ last]⟩ ∧ (∃ r, Range.ofText .named first = .ok r) ∧
        ∃ r, Range.ofText .named last = .ok r := by
  have hword := Clause.isWord_of_isBareVersion hfirst
  have hword' := Clause.isWord_of_isBareVersion hlast
  have hclauses := allClauses_hyphen hfirst hlast hbefore hafter
  have hwords : Text.words (first ++ before ++ '-' :: (after ++ last)) = [first, ['-'], last] := by
    show Text.words (first ++ before ++ (['-'] ++ (after ++ last))) = _
    rw [List.append_assoc, Text.words_append_blanks_append hword hne hbefore,
      Text.words_append_blanks_append (by decide) hne' hafter, Text.words_of_isWord hword']
  have hclause : [' '].intercalate [first, ['-'], last] = first ++ " - ".toList ++ last := by
    simp [List.intercalate_cons_cons]
  rw [hwords, hclause] at hclauses
  simp only [CompatRange.ofSpecifier_eq_ok_iff_of_single hclauses, Range.ofText,
    mapError_eq_ok_iff, Clause.toArm_hyphen_eq_ok_iff hfirst hlast]
  constructor
  · rintro ⟨arm, ⟨rfl, hread⟩, rfl⟩
    exact ⟨rfl, hread⟩
  · rintro ⟨rfl, hread⟩
    exact ⟨_, ⟨rfl, hread⟩, rfl⟩

/-- If the hyphen sticks to one of two words, the specifier is refused. -/
theorem ofSpecifier_hyphen_of_two_words {more word : Text} (hfront : Text.IsWord (first ++ more))
    (hback : Text.IsWord word)
    (hwords : Text.words (first ++ before ++ '-' :: (after ++ last)) = [first ++ more, word])
    (hside : "- ".toList <:+: first ++ more ++ ' ' :: word ∨
      " -".toList <:+: first ++ more ++ ' ' :: word) :
    CompatRange.ofSpecifier (first ++ before ++ '-' :: (after ++ last)) =
      .error ⟨first ++ before ++ '-' :: (after ++ last),
        .clause (first ++ more ++ ' ' :: word) .unbalancedHyphen⟩ := by
  have htrim : Text.trim (first ++ before ++ '-' :: (after ++ last)) ≠ [] := fun htrim =>
    absurd (Text.trim_eq_nil_iff.mp htrim '-' (by simp)) (by decide)
  have hclauses := allClauses_hyphen hfirst hlast hbefore hafter
  have hclause : [' '].intercalate [first ++ more, word] = first ++ more ++ ' ' :: word := by
    simp [List.intercalate_cons_cons]
  rw [hwords, hclause] at hclauses
  refine CompatRange.ofSpecifier_of_single_error hclauses htrim ?_
  obtain ⟨c, rest, rfl, hc⟩ := Clause.exists_eq_cons_of_isBareVersion hfirst
  exact Clause.toArm_of_unbalanced hc hfront hback hside

/-- **A blank on one side only**: the clause is refused. -/
theorem ofSpecifier_hyphen_one_sided (h : before = [] ↔ after ≠ []) :
    ∃ clause, CompatRange.ofSpecifier (first ++ before ++ '-' :: (after ++ last)) =
      .error ⟨first ++ before ++ '-' :: (after ++ last), .clause clause .unbalancedHyphen⟩ := by
  have hword := Clause.isWord_of_isBareVersion hfirst
  have hword' := Clause.isWord_of_isBareVersion hlast
  by_cases hne : before = []
  · have hne' := h.mp hne
    subst hne
    have hfront : Text.IsWord (first ++ ['-']) :=
      ⟨by simp, List.forall_mem_append.mpr ⟨hword.2, List.forall_mem_singleton.mpr rfl⟩⟩
    refine ⟨_, ofSpecifier_hyphen_of_two_words hfirst hlast hbefore hafter hfront hword' ?_
      (.inl ⟨first, last, by simp⟩)⟩
    show Text.words (first ++ [] ++ (['-'] ++ (after ++ last))) = _
    rw [List.append_nil, ← List.append_assoc, Text.words_append_blanks_append hfront hne' hafter,
      Text.words_of_isWord hword']
  · have hnil : after = [] := not_not.mp fun hafter => hne (h.mpr hafter)
    subst hnil
    have hback : Text.IsWord ('-' :: last) :=
      ⟨List.cons_ne_nil _ _, List.forall_mem_cons.mpr ⟨rfl, hword'.2⟩⟩
    have hfront : Text.IsWord (first ++ []) := by rwa [List.append_nil]
    refine ⟨_, ofSpecifier_hyphen_of_two_words hfirst hlast hbefore hafter hfront hback ?_
      (.inr ⟨first, last, by simp⟩)⟩
    rw [List.nil_append, List.append_assoc, List.append_nil,
      Text.words_append_blanks_append hword hne hbefore, Text.words_of_isWord hback]

omit hbefore hafter in
/-- **No blanks**: the clause is a bare version. -/
theorem ofSpecifier_hyphen_close {c : CompatRange} :
    CompatRange.ofSpecifier (first ++ '-' :: last) = .ok c ↔
      c = ⟨['^' :: (first ++ '-' :: last)]⟩ ∧
        ∃ r, Range.ofText .named ('^' :: (first ++ '-' :: last)) = .ok r := by
  have hbare := Clause.isBareVersion_append_hyphen hfirst hlast
  have hclauses := @allClauses_hyphen _ _ [] [] hfirst hlast (by simp) (by simp)
  rw [List.append_nil, List.nil_append, Text.words_of_isWord (Clause.isWord_of_isBareVersion hbare),
    List.intercalate_singleton] at hclauses
  simp only [CompatRange.ofSpecifier_eq_ok_iff_of_single hclauses, Range.ofText,
    mapError_eq_ok_iff, Clause.toArm_bare_eq_ok_iff hbare]
  constructor
  · rintro ⟨arm, ⟨rfl, hread⟩, rfl⟩
    exact ⟨rfl, hread⟩
  · rintro ⟨rfl, hread⟩
    exact ⟨_, ⟨rfl, hread⟩, rfl⟩

end Hyphen

/-- **The blanks around a hyphen decide what it is.** Between two bare versions, a hyphen with
blanks on both sides makes a hyphen range, which is accepted if and only if both versions are; one
with blanks on one side only is refused; and one without blanks makes a single version of the two,
which gets a caret if it is accepted and is no hyphen range. -/
theorem hyphen_goes_by_blanks {first last before after : Text}
    (hfirst : Clause.isBareVersion first = true) (hlast : Clause.isBareVersion last = true)
    (hbefore : ∀ c ∈ before, isBlank c = true) (hafter : ∀ c ∈ after, isBlank c = true) :
    let specifier := first ++ before ++ '-' :: (after ++ last)
    (before ≠ [] → after ≠ [] → ∀ c, CompatRange.ofSpecifier specifier = .ok c ↔
      c = ⟨[first ++ " - ".toList ++ last]⟩ ∧ (∃ r, Range.ofText .named first = .ok r) ∧
        ∃ r, Range.ofText .named last = .ok r) ∧
    ((before = [] ↔ after ≠ []) → ∃ clause, CompatRange.ofSpecifier specifier =
      .error ⟨specifier, .clause clause .unbalancedHyphen⟩) ∧
    (before = [] → after = [] → ∀ c, CompatRange.ofSpecifier specifier = .ok c ↔
      c = ⟨['^' :: specifier]⟩ ∧ ¬ " - ".toList <:+: '^' :: specifier ∧
        ∃ r, Range.ofText .named ('^' :: specifier) = .ok r) := by
  refine ⟨fun hne hne' c => ofSpecifier_hyphen_blanks hfirst hlast hbefore hafter hne hne',
    ofSpecifier_hyphen_one_sided hfirst hlast hbefore hafter, ?_⟩
  rintro rfl rfl c
  have hbare := Clause.isBareVersion_append_hyphen hfirst hlast
  have hinfix : ¬ " - ".toList <:+: '^' :: (first ++ '-' :: last) := by
    intro h
    have hspace : ' ' ∈ '^' :: (first ++ '-' :: last) := h.subset (by decide)
    rcases List.mem_cons.mp hspace with h | h
    · exact absurd h (by decide)
    · exact Clause.blank_notMem_of_isBareVersion hbare h
  rw [List.append_nil, List.nil_append, ofSpecifier_hyphen_close hfirst hlast]
  exact and_congr_right fun _ => (and_iff_right hinfix).symm

/-- The versions `1.2.3-a-` and `2`, with a no-break space and a tabulator around the hyphen, with a
blank on one side, and without. -/
theorem hyphen_goes_by_blanks_trailing :
    Clause.isBareVersion "1.2.3-a-".toList = true ∧ Clause.isBareVersion "2".toList = true ∧
      (∀ c ∈ ['\u00a0'], isBlank c = true) ∧ (∀ c ∈ ['\t'], isBlank c = true) ∧
      CompatRange.ofSpecifier ("1.2.3-a-".toList ++ ['\u00a0'] ++ '-' :: (['\t'] ++ "2".toList)) =
        .ok ⟨["1.2.3-a- - 2".toList]⟩ ∧
      (∃ clause, CompatRange.ofSpecifier
          ("1.2.3-a-".toList ++ [] ++ '-' :: (['\t'] ++ "2".toList)) =
        .error ⟨"1.2.3-a-".toList ++ [] ++ '-' :: (['\t'] ++ "2".toList),
          .clause clause .unbalancedHyphen⟩) ∧
      CompatRange.ofSpecifier ("1.2.3-a-".toList ++ [] ++ '-' :: ([] ++ "2".toList)) =
        .ok ⟨["^1.2.3-a--2".toList]⟩ := by
  have hfirst : Clause.isBareVersion "1.2.3-a-".toList = true := by decide
  have hlast : Clause.isBareVersion "2".toList = true := by decide
  have hspace : ∀ c ∈ ['\u00a0'], isBlank c = true := List.forall_mem_singleton.mpr rfl
  have htab : ∀ c ∈ ['\t'], isBlank c = true := List.forall_mem_singleton.mpr rfl
  have hnone : ∀ c ∈ ([] : Text), isBlank c = true := by simp
  have hboth := (hyphen_goes_by_blanks hfirst hlast hspace htab).1 (by simp) (by simp)
  have hone := (hyphen_goes_by_blanks hfirst hlast hnone htab).2.1 (by simp)
  have hclose := (hyphen_goes_by_blanks hfirst hlast hnone hnone).2.2 rfl rfl
  refine ⟨hfirst, hlast, hspace, htab, ?_, hone, ?_⟩
  · rw [hboth]
    exact ⟨by decide, ⟨_, rfl⟩, _, rfl⟩
  · rw [hclose]
    exact ⟨by decide, by decide +kernel, _, rfl⟩

end JuliaReleases
