import JuliaReleases.CompatRange.Basic
import JuliaReleases.Proofs.CompatRange.Clause

/-!
# Specifiers, clause by clause

A specifier is cut into clauses at its commas, and every clause is brought into a normal form,
`JuliaReleases.Specifier.IsNormal`, before its arm is looked for. A blank specifier is a case of its
own: it has no clause at all, while a blank clause between two commas counts. But since a blank
clause has no arm either, the two cases need not be told apart where reading succeeds. By
`JuliaReleases.CompatRange.ofSpecifier_eq_ok_iff` the arms are those of
`JuliaReleases.Specifier.allClauses`, one by one.

Two consequences are drawn here. A comma between two specifiers joins their clauses
(`JuliaReleases.Specifier.allClauses_append_comma`). And since an arm is in normal form again, the
arms with commas between them are a specifier with just these arms
(`JuliaReleases.read_native_specifier`).
-/

namespace JuliaReleases

namespace Specifier

variable {clause specifier text : Text} {c : Char}

/-! ### The normal form of a clause -/

/-- **The normal form of a clause**: neither a comma nor one of the signs that are spelled out, and
words with single blanks between them. -/
structure IsNormal (clause : Text) : Prop where
  comma : ',' ∉ clause
  atLeast : '≥' ∉ clause
  atMost : '≤' ∉ clause
  spaced : Text.IsSpaced clause

/-- A text with the signs `≥` and `≤` spelled out. -/
def spell (text : Text) : Text :=
  text.flatMap fun c =>
    if c = '≥' then Operator.ge.write else if c = '≤' then Operator.le.write else [c]

theorem normalizeClause_eq (clause : Text) :
    normalizeClause clause = [' '].intercalate (Text.words (spell clause)) :=
  rfl

theorem spell_append (front rest : Text) : spell (front ++ rest) = spell front ++ spell rest :=
  List.flatMap_append

theorem spell_of_notMem (hge : '≥' ∉ text) (hle : '≤' ∉ text) : spell text = text := by
  have hsame : ∀ c ∈ text, (if c = '≥' then Operator.ge.write
      else if c = '≤' then Operator.le.write else [c]) = [c] := by
    intro c hc
    have hcge : c ≠ '≥' := fun h => hge (h ▸ hc)
    have hcle : c ≠ '≤' := fun h => hle (h ▸ hc)
    rw [if_neg hcge, if_neg hcle]
  rw [spell, List.flatMap_congr hsame]
  exact List.flatMap_singleton' text

/-- What is spelled out are characters of operators. -/
theorem mem_spell (h : c ∈ spell text) :
    c ∈ Operator.starts ∨ c ∈ text ∧ c ≠ '≥' ∧ c ≠ '≤' := by
  obtain ⟨d, hd, hc⟩ := List.mem_flatMap.mp h
  split at hc
  · exact .inl (Operator.mem_starts_of_mem_write hc)
  · split at hc
    · exact .inl (Operator.mem_starts_of_mem_write hc)
    · next hge hle =>
      obtain rfl := List.mem_singleton.mp hc
      exact .inr ⟨hd, hge, hle⟩

/-- A character that is neither a blank nor part of an operator comes from the clause, and is no
sign that is spelled out. -/
theorem notMem_normalizeClause (hblank : c ≠ ' ') (hstart : c ∉ Operator.starts)
    (h : c ∈ clause → c = '≥' ∨ c = '≤') : c ∉ normalizeClause clause := by
  intro hmem
  rcases Text.mem_intercalate hmem with hc | ⟨word, hword, hc⟩
  · exact hblank hc
  · rcases mem_spell (Text.mem_of_mem_words hword hc) with hc | ⟨hc, hge, hle⟩
    · exact hstart hc
    · exact (h hc).elim hge hle

/-- **Normalizing gives the normal form.** -/
theorem isNormal_normalizeClause (h : ',' ∉ clause) : IsNormal (normalizeClause clause) where
  comma := notMem_normalizeClause (by decide) (by decide) fun hmem => absurd hmem h
  atLeast := notMem_normalizeClause (by decide) (by decide) fun _ => .inl rfl
  atMost := notMem_normalizeClause (by decide) (by decide) fun _ => .inr rfl
  spaced := Text.isSpaced_intercalate fun _ hword => Text.isWord_of_mem_words hword

/-- **The normal form is left alone.** -/
theorem normalizeClause_of_isNormal (h : IsNormal clause) : normalizeClause clause = clause := by
  rw [normalizeClause_eq, spell_of_notMem h.atLeast h.atMost]
  exact h.spaced

/-- Blanks are no signs, so they stay when the signs are spelled out. -/
theorem spell_of_blank (h : ∀ c ∈ text, isBlank c = true) : spell text = text := by
  have hsign : ∀ d, isBlank d = false → d ∉ text := fun d hd hmem => by
    simp [h d hmem] at hd
  exact spell_of_notMem (hsign _ (by decide)) (hsign _ (by decide))

/-- Blanks at the front do not count. -/
theorem normalizeClause_blanks_append {blanks : Text} (h : ∀ c ∈ blanks, isBlank c = true)
    (text : Text) : normalizeClause (blanks ++ text) = normalizeClause text := by
  rw [normalizeClause_eq, spell_append, spell_of_blank h, Text.words_blanks_append h]
  rfl

/-- A blank clause is empty. -/
theorem normalizeClause_of_blank (h : ∀ c ∈ text, isBlank c = true) :
    normalizeClause text = [] := by
  rw [normalizeClause_eq, spell_of_blank h, Text.words_of_blank h]
  rfl

/-- The arm of a clause in normal form is in normal form, and its own arm. -/
theorem IsNormal.toArm_arm {arm : Text} (hclause : IsNormal clause)
    (h : Clause.toArm clause = .ok arm) : IsNormal arm ∧ Clause.toArm arm = .ok arm := by
  obtain ⟨hspaced, harm⟩ := Clause.toArm_arm h hclause.spaced
  have hmem : ∀ {c : Char}, c ∈ arm → c = '^' ∨ c ∈ clause := by
    intro c hc
    obtain ⟨hstands, -⟩ := Clause.toArm_eq_ok_iff.mp h
    rw [hclause.spaced.trim_eq] at hstands
    exact (hstands.mem_arm hc).imp_right Clause.mem_closeOperator
  exact ⟨⟨fun hc => (hmem hc).elim (by decide) hclause.comma,
    fun hc => (hmem hc).elim (by decide) hclause.atLeast,
    fun hc => (hmem hc).elim (by decide) hclause.atMost, hspaced⟩, harm⟩

/-! ### The clauses of a specifier -/

/-- The clauses of a specifier; a blank one has a single clause, which is empty. -/
def allClauses (specifier : Text) : List Text :=
  (specifier.splitOn ',').map normalizeClause

theorem isNormal_of_mem_allClauses (h : clause ∈ allClauses specifier) : IsNormal clause := by
  obtain ⟨piece, hpiece, rfl⟩ := List.mem_map.mp h
  rw [List.splitOn_eq_splitOnP] at hpiece
  refine isNormal_normalizeClause fun hmem => ?_
  exact absurd (Text.mem_and_eq_false_of_mem_splitOnP hpiece ',' hmem).2 (by simp)

/-- **A comma between two specifiers joins their clauses.** -/
theorem allClauses_append_comma (a b : Text) :
    allClauses (a ++ ',' :: b) = allClauses a ++ allClauses b := by
  rw [allClauses, List.splitOn_append_cons_self, List.map_append]
  rfl

/-- Blanks at the front do not count. -/
theorem allClauses_blanks_append {blanks : Text} (h : ∀ c ∈ blanks, isBlank c = true)
    (text : Text) : allClauses (blanks ++ text) = allClauses text := by
  induction blanks with
  | nil => rfl
  | cons b blanks ih =>
    obtain ⟨hb, hblanks⟩ := List.forall_mem_cons.mp h
    have hcomma : (b == ',') = false := by
      rw [beq_eq_false_iff_ne]
      rintro rfl
      exact absurd hb (by decide)
    have hfirst : ∀ first, normalizeClause (b :: first) = normalizeClause first :=
      normalizeClause_blanks_append (List.forall_mem_singleton.mpr hb)
    obtain ⟨first, others, hpieces⟩ :=
      List.exists_cons_of_ne_nil (List.splitOn_ne_nil ',' (blanks ++ text))
    rw [← ih hblanks, List.cons_append, allClauses, allClauses, List.splitOn_cons_eq_if_modifyHead,
      hcomma, if_neg Bool.false_ne_true, hpieces, List.modifyHead_cons, List.map_cons,
      List.map_cons, hfirst]

/-- Clauses in normal form are found again where they have commas between them, with or without
blanks behind the commas. -/
theorem allClauses_intercalate {blanks : Text} (hblanks : ∀ c ∈ blanks, isBlank c = true)
    {clauses : List Text} (hne : clauses ≠ []) (h : ∀ clause ∈ clauses, IsNormal clause) :
    allClauses ((',' :: blanks).intercalate clauses) = clauses := by
  have hsingle : ∀ {clause}, IsNormal clause → allClauses clause = [clause] := by
    intro clause hclause
    rw [allClauses, List.splitOn_eq_singleton hclause.comma, List.map_singleton,
      normalizeClause_of_isNormal hclause]
  induction clauses with
  | nil => exact absurd rfl hne
  | cons clause clauses ih =>
    have hclause := h clause List.mem_cons_self
    cases clauses with
    | nil => rw [List.intercalate_singleton, hsingle hclause]
    | cons clause' clauses =>
      have hjoined : (',' :: blanks).intercalate (clause :: clause' :: clauses) =
          clause ++ ',' :: (blanks ++ (',' :: blanks).intercalate (clause' :: clauses)) := by
        simp [List.intercalate_cons_cons]
      rw [hjoined, allClauses_append_comma, hsingle hclause, allClauses_blanks_append hblanks,
        ih (List.cons_ne_nil _ _) fun d hd => h d (List.mem_cons_of_mem _ hd)]
      rfl

/-- Where there is a clause, these are the clauses. -/
theorem clauses_of_not_blank (h : Text.trim specifier ≠ []) :
    clauses specifier = allClauses specifier :=
  if_neg h

theorem clauses_of_blank (h : Text.trim specifier = []) : clauses specifier = [] :=
  if_pos h

/-- A blank specifier has an empty clause only. -/
theorem allClauses_of_blank (h : Text.trim specifier = []) : allClauses specifier = [[]] := by
  have hblank := Text.trim_eq_nil_iff.mp h
  have hcomma : ',' ∉ specifier := fun hmem => absurd (hblank ',' hmem) (by decide)
  rw [allClauses, List.splitOn_eq_singleton hcomma, List.map_singleton,
    normalizeClause_of_blank hblank]

theorem allClauses_ne_nil (specifier : Text) : allClauses specifier ≠ [] := by
  simp [allClauses, List.splitOn_ne_nil]

theorem arms_of_not_blank (h : Text.trim specifier ≠ []) :
    Specifier.arms specifier = (clauses specifier).mapM (armOfClause specifier) := by
  rw [Specifier.arms, clauses_of_not_blank h]
  cases hclauses : allClauses specifier with
  | nil => exact absurd hclauses (allClauses_ne_nil specifier)
  | cons => rfl

/-- **The arms are those of all clauses**, one by one. -/
theorem arms_eq_ok_iff {arms : List Text} : Specifier.arms specifier = .ok arms ↔
    (allClauses specifier).map Clause.toArm = arms.map .ok := by
  by_cases hblank : Text.trim specifier = []
  · -- The empty clause has no arm.
    have hempty : Clause.toArm [] = .error .empty := rfl
    rw [Specifier.arms, clauses_of_blank hblank, allClauses_of_blank hblank]
    cases arms <;> simp [hempty]
  · have harm : ∀ clause arm, armOfClause specifier clause = .ok arm ↔
        Clause.toArm clause = .ok arm := fun _ _ => mapError_eq_ok_iff
    rw [arms_of_not_blank hblank, clauses_of_not_blank hblank, mapM_eq_ok_iff,
      map_eq_map_ok_iff harm]

end Specifier

/-! ### Compat ranges -/

namespace CompatRange

open Specifier

variable {specifier : Text} {c : CompatRange}

theorem ofSpecifier_eq_ok_iff : ofSpecifier specifier = .ok c ↔
    (allClauses specifier).map Clause.toArm = c.arms.map .ok := by
  rw [ofSpecifier, map_eq_ok_iff, ← arms_eq_ok_iff]
  constructor
  · rintro ⟨arms, harms, rfl⟩
    exact harms
  · exact fun h => ⟨c.arms, h, rfl⟩

/-- **A specifier is refused** because it is blank, or because of the first clause that has no
arm. -/
theorem ofSpecifier_eq_error_iff {e : RangeError} : ofSpecifier specifier = .error e ↔
    (∀ ch ∈ specifier, isBlank ch = true) ∧ e = ⟨specifier, .noClause⟩ ∨
      ∃ before clause after fault, clauses specifier = before ++ clause :: after ∧
        (∀ earlier ∈ before, ∃ arm, Clause.toArm earlier = .ok arm) ∧
        Clause.toArm clause = .error fault ∧ e = ⟨specifier, .clause clause fault⟩ := by
  rw [ofSpecifier, map_eq_error_iff, ← Text.trim_eq_nil_iff]
  by_cases hblank : Text.trim specifier = []
  · rw [Specifier.arms, clauses_of_blank hblank]
    constructor
    · intro h
      exact .inl ⟨hblank, (Except.error.inj h).symm⟩
    · rintro (⟨-, rfl⟩ | ⟨before, clause, after, -, hclauses, -⟩)
      · rfl
      · exact absurd hclauses (by simp)
  · rw [arms_of_not_blank hblank, mapM_eq_error_iff]
    simp only [armOfClause, mapError_eq_ok_iff, mapError_eq_error_iff]
    constructor
    · rintro ⟨before, clause, after, hclauses, hbefore, fault, hfault, rfl⟩
      exact .inr ⟨before, clause, after, fault, hclauses, hbefore, hfault, rfl⟩
    · rintro (⟨h, -⟩ | ⟨before, clause, after, fault, hclauses, hbefore, hfault, rfl⟩)
      · exact absurd h hblank
      · exact ⟨before, clause, after, hclauses, hbefore, fault, hfault, rfl⟩

theorem arms_ne_nil_of_ofSpecifier (h : ofSpecifier specifier = .ok c) : c.arms ≠ [] := by
  intro hnil
  rw [ofSpecifier_eq_ok_iff, hnil, List.map_nil, List.map_eq_nil_iff] at h
  exact allClauses_ne_nil specifier h

/-- The arms of a specifier are in normal form, and their own arms. -/
theorem toArm_of_mem_arms (h : ofSpecifier specifier = .ok c) {arm : Text} (harm : arm ∈ c.arms) :
    IsNormal arm ∧ Clause.toArm arm = .ok arm := by
  obtain ⟨clause, hclause, hread⟩ :=
    exists_mem_of_mem_results (ofSpecifier_eq_ok_iff.mp h) harm
  exact (isNormal_of_mem_allClauses hclause).toArm_arm hread

/-- Arms in normal form that stand for themselves make a specifier. -/
theorem ofSpecifier_intercalate {arms : List Text} (hne : arms ≠ [])
    (h : ∀ arm ∈ arms, IsNormal arm ∧ Clause.toArm arm = .ok arm) :
    ofSpecifier (", ".toList.intercalate arms) = .ok ⟨arms⟩ := by
  have hspace : ∀ c ∈ [' '], isBlank c = true := List.forall_mem_singleton.mpr rfl
  have hclauses : allClauses (", ".toList.intercalate arms) = arms :=
    allClauses_intercalate hspace hne fun arm harm => (h arm harm).1
  rw [ofSpecifier_eq_ok_iff, hclauses]
  exact List.map_congr_left fun arm harm => (h arm harm).2

end CompatRange

open Specifier CompatRange in
/-- **The arms of a specifier are a specifier with these arms**, in the same order. Each of them is
in normal form, so it has no comma, no sign to be spelled out and no blanks but single ones, and it
is a clause that is neither refused nor changed; so it is a specifier with one arm, namely
itself. -/
theorem read_native_specifier {specifier : Text} {c : CompatRange}
    (h : ofSpecifier specifier = .ok c) : ofSpecifier c.native = .ok c ∧ ∀ arm ∈ c.arms,
      IsNormal arm ∧ Clause.toArm arm = .ok arm ∧ ofSpecifier arm = .ok ⟨[arm]⟩ := by
  refine ⟨ofSpecifier_intercalate (arms_ne_nil_of_ofSpecifier h) fun arm harm =>
    toArm_of_mem_arms h harm, fun arm harm => ?_⟩
  obtain ⟨hnormal, hself⟩ := toArm_of_mem_arms h harm
  have hsingle : ofSpecifier (", ".toList.intercalate [arm]) = .ok ⟨[arm]⟩ :=
    ofSpecifier_intercalate (List.cons_ne_nil _ _) (by simpa using ⟨hnormal, hself⟩)
  rw [List.intercalate_singleton] at hsingle
  exact ⟨hnormal, hself, hsingle⟩

open Specifier CompatRange in
/-- A bare version, a hyphen range, and a sign that is spelled out. -/
theorem read_native_specifier_list :
    let c : CompatRange := ⟨["^1".toList, "2 - 3".toList, ">=4".toList]⟩
    ofSpecifier "1,2  -  3, ≥ 4".toList = .ok c ∧ ofSpecifier c.native = .ok c ∧
      ∀ arm ∈ c.arms, IsNormal arm ∧ Clause.toArm arm = .ok arm ∧ ofSpecifier arm = .ok ⟨[arm]⟩ :=
  ⟨rfl, @read_native_specifier "1,2  -  3, ≥ 4".toList _ rfl⟩

end JuliaReleases
