import JuliaReleases.CompatRange.Clause
import JuliaReleases.Proofs.Range.Meaning
import JuliaReleases.Proofs.Version.Spelling

/-!
# The arm that a clause stands for

`JuliaReleases.Clause.toArm` refuses most clauses, in a fixed order of checks. What is left is
described by `JuliaReleases.Clause.StandsFor`, in two cases: a **hyphen range** of two bare versions
stays as it is, and a **single bound** without blanks gets a caret if it is a bare version. By
`JuliaReleases.Clause.toArm_eq_ok_iff`, a clause has an arm if and only if it is described there,
once a blank behind its operator is removed, and the arm is a range.

The two cases are stable: an arm stands for itself (`JuliaReleases.Clause.toArm_arm`). A hyphen
range starts with a digit, so it has no operator that a blank could stand behind, and a bare version
with a caret in front of it is not bare any more.
-/

namespace JuliaReleases.Clause

variable {clause arm text first last : Text}

/-! ### Bare versions -/

theorem isDottedNumber_iff : isDottedNumber text = true ↔
    ∃ c rest, text = c :: rest ∧ c.isDigit = true ∧ ∀ d ∈ text, d.isDigit = true ∨ d = '.' := by
  cases text with
  | nil => simp [isDottedNumber]
  | cons c rest => simp [isDottedNumber]

/-- The characters of a bare version. -/
theorem char_of_isBareVersion (h : isBareVersion text = true) {c : Char} (hc : c ∈ text) :
    isIdentifierChar c = true ∨ c = '.' ∨ c = '+' := by
  simp only [isBareVersion, Bool.and_eq_true] at h
  obtain ⟨hnumber, hsuffix⟩ := h
  rw [← List.takeWhile_append_dropWhile (p := fun c => !(c == '-' || c == '+')) (l := text),
    List.mem_append] at hc
  rcases hc with hc | hc
  · obtain ⟨-, -, -, -, hall⟩ := isDottedNumber_iff.mp hnumber
    rcases hall c hc with hdigit | rfl
    · exact .inl (isIdentifierChar_of_isDigit hdigit)
    · exact .inr (.inl rfl)
  · -- The rest is the mark that ends the numbers, and the suffix behind it.
    have hmark := List.head?_dropWhile_not (fun c => !(c == '-' || c == '+')) text
    revert hc hsuffix hmark
    cases text.dropWhile fun c => !(c == '-' || c == '+') with
    | nil => simp
    | cons mark suffix =>
      simp only [List.head?_cons, List.mem_cons, isSuffix, Bool.and_eq_true, List.all_eq_true,
        Bool.or_eq_true, Bool.not_eq_true', beq_iff_eq, Bool.not_eq_false', isIdentifierChar]
      rintro ⟨-, hchars⟩ (rfl | hc) hmark
      · rcases hmark with rfl | rfl
        · exact .inl (.inr rfl)
        · exact .inr (.inr rfl)
      · have := hchars c hc
        tauto

theorem exists_eq_cons_of_isBareVersion (h : isBareVersion text = true) :
    ∃ c rest, text = c :: rest ∧ c.isDigit = true := by
  simp only [isBareVersion, Bool.and_eq_true] at h
  obtain ⟨c, rest, htake, hc, -⟩ := isDottedNumber_iff.mp h.1
  rw [← List.takeWhile_append_dropWhile (p := fun c => !(c == '-' || c == '+')) (l := text), htake]
  exact ⟨c, _, rfl, hc⟩

theorem isWord_of_isBareVersion (h : isBareVersion text = true) : Text.IsWord text := by
  refine ⟨?_, fun c hc => ?_⟩
  · obtain ⟨c, rest, rfl, -⟩ := exists_eq_cons_of_isBareVersion h
    exact List.cons_ne_nil c rest
  · rcases char_of_isBareVersion h hc with hc | rfl | rfl
    · exact isBlank_eq_false_of_isIdentifierChar hc
    · rfl
    · rfl

theorem blank_notMem_of_isBareVersion (h : isBareVersion text = true) : ' ' ∉ text :=
  Text.space_notMem_of_isWord (isWord_of_isBareVersion h)

theorem bar_notMem_of_isBareVersion (h : isBareVersion text = true) : '|' ∉ text :=
  fun hmem => absurd (char_of_isBareVersion h hmem) (by decide)

/-- A bare version is a word of a range. -/
theorem isToken_of_isBareVersion (h : isBareVersion text = true) : Range.IsToken text :=
  ⟨isWord_of_isBareVersion h, Text.pieces_of_not_mem (by decide) (bar_notMem_of_isBareVersion h)⟩

/-- A version with a caret in front of it is not bare. -/
theorem isBareVersion_caret (text : Text) :
    isBareVersion (Operator.caret.write ++ text) = false := by
  refine Bool.eq_false_iff.mpr fun h => ?_
  obtain ⟨c, rest, htext, hc⟩ := exists_eq_cons_of_isBareVersion h
  obtain rfl : '^' = c := (List.cons.inj htext).1
  exact absurd hc (by decide)

theorem withCaret_withCaret (text : Text) : withCaret (withCaret text) = withCaret text := by
  by_cases h : isBareVersion text = true
  · rw [withCaret, withCaret, if_pos h, isBareVersion_caret, if_neg (by simp)]
  · rw [withCaret, withCaret, if_neg h, if_neg h]

theorem mem_withCaret {c : Char} (h : c ∈ withCaret text) : c = '^' ∨ c ∈ text := by
  unfold withCaret at h
  split at h
  · exact List.mem_cons.mp h
  · exact .inr h

/-! ### The blank behind an operator -/

theorem eq_append_of_afterSpaced? {op : Operator} {rest : Text}
    (h : afterSpaced? clause op = some rest) : clause = op.write ++ ' ' :: rest := by
  unfold afterSpaced? at h
  split at h
  · next c more hdrop =>
    split at h
    · obtain rfl := Option.some.inj h
      have hclause := Text.eq_append_of_dropPrefix? hdrop
      rwa [List.append_assoc, List.singleton_append] at hclause
    · exact absurd h (by simp)
  · exact absurd h (by simp)

/-- What closing an operator does: nothing, or it takes one blank away. -/
theorem closeOperator_cases (clause : Text) : closeOperator clause = clause ∨
    ∃ (op : Operator) (rest : Text), clause = op.write ++ ' ' :: rest ∧
      closeOperator clause = op.write ++ rest := by
  unfold closeOperator
  cases hfind : spacedOperators.findSome? fun op => (op, ·) <$> afterSpaced? clause op with
  | none => exact .inl rfl
  | some found =>
    obtain ⟨op, -, hop⟩ := List.exists_of_findSome?_eq_some hfind
    obtain ⟨rest, hrest, rfl⟩ := Option.map_eq_some_iff.mp hop
    exact .inr ⟨op, rest, eq_append_of_afterSpaced? hrest, rfl⟩

theorem closeOperator_of_notMem (h : ' ' ∉ clause) : closeOperator clause = clause := by
  rcases closeOperator_cases clause with hclose | ⟨op, rest, rfl, -⟩
  · exact hclose
  · exact absurd (by simp) h

/-- Nothing is closed up where no operator stands at the front. -/
theorem closeOperator_of_head? (h : ∀ c ∈ clause.head?, c ∉ Operator.starts) :
    closeOperator clause = clause := by
  rcases closeOperator_cases clause with hclose | ⟨op, rest, rfl, -⟩
  · exact hclose
  · obtain ⟨c, more, hop⟩ := List.exists_cons_of_ne_nil op.write_ne_nil
    have hc : c ∈ Operator.starts := Operator.mem_starts_of_mem_write (hop ▸ List.mem_cons_self)
    exact absurd hc (h c (by rw [hop]; rfl))

theorem closeOperator_of_isDigit {c : Char} (hc : c.isDigit = true) (rest : Text) :
    closeOperator (c :: rest) = c :: rest := by
  refine closeOperator_of_head? fun d hd hmem => ?_
  obtain rfl : c = d := Option.some.inj hd
  simp [Operator.isDigit_eq_false_of_mem_starts hmem] at hc

theorem closeOperator_eq_nil_iff : closeOperator clause = [] ↔ clause = [] := by
  rcases closeOperator_cases clause with hclose | ⟨op, rest, rfl, hclose⟩
  · rw [hclose]
  · simp [hclose, op.write_ne_nil]

theorem mem_closeOperator {c : Char} (h : c ∈ closeOperator clause) : c ∈ clause := by
  rcases closeOperator_cases clause with hclose | ⟨op, rest, rfl, hclose⟩
  · rwa [hclose] at h
  · rw [hclose, List.mem_append] at h
    rw [List.mem_append, List.mem_cons]
    exact h.imp_right .inr

/-! ### Hyphen ranges -/

/-- **A hyphen range** is found exactly where two bare versions have ` - ` between them. -/
theorem hyphenEnds_eq_ok_some_iff : hyphenEnds clause = .ok (some (first, last)) ↔
    isBareVersion first = true ∧ isBareVersion last = true ∧
      clause = first ++ " - ".toList ++ last := by
  constructor
  · intro h
    have hclause : " - ".toList.intercalate (Text.pieces " - ".toList clause) = clause :=
      Text.intercalate_pieces (by decide) clause
    unfold hyphenEnds at h
    split at h
    · exact absurd h (by simp)
    · next first' last' hpieces =>
      split at h
      · next hbare =>
        simp only [Except.ok.injEq, Option.some.injEq, Prod.mk.injEq] at h
        obtain ⟨rfl, rfl⟩ := h
        rw [Bool.and_eq_true] at hbare
        rw [hpieces] at hclause
        exact ⟨hbare.1, hbare.2, by simpa using hclause.symm⟩
      · exact absurd h (by simp)
    · exact absurd h (by simp)
  · rintro ⟨hfirst, hlast, rfl⟩
    have hpieces : Text.pieces " - ".toList (first ++ " - ".toList ++ last) = [first, last] :=
      Text.pieces_pair (blank_notMem_of_isBareVersion hfirst) (blank_notMem_of_isBareVersion hlast)
    rw [hyphenEnds, hpieces]
    simp [hfirst, hlast]

theorem hyphenEnds_eq_ok_none_iff :
    hyphenEnds clause = .ok none ↔ Text.pieces " - ".toList clause = [clause] := by
  have hclause : " - ".toList.intercalate (Text.pieces " - ".toList clause) = clause :=
    Text.intercalate_pieces (by decide) clause
  constructor
  · intro h
    unfold hyphenEnds at h
    split at h
    · next piece hpieces =>
      rw [hpieces, List.intercalate_singleton] at hclause
      rw [hpieces, hclause]
    · split at h <;> exact absurd h (by simp)
    · exact absurd h (by simp)
  · intro h
    rw [hyphenEnds, h]

/-! ### What a clause stands for -/

/-- What a clause without a blank behind its operator stands for. -/
inductive StandsFor (clause : Text) : Text → Prop
  /-- A hyphen range stands for itself. -/
  | hyphen {first last : Text} : isBareVersion first = true → isBareVersion last = true →
      clause = first ++ " - ".toList ++ last → StandsFor clause clause
  /-- A single bound stands for itself, or for a caret range. -/
  | single : clause ≠ [] → ' ' ∉ clause → clause ≠ ['*'] → ¬ Operator.le.write <+: clause →
      StandsFor clause (withCaret clause)

theorem StandsFor.ne_nil (h : StandsFor clause arm) : clause ≠ [] := by
  cases h with
  | hyphen _ _ hclause =>
    rw [hclause]
    simp
  | single hne _ _ _ => exact hne

theorem validated_eq_ok_iff {arm' : Text} :
    validated arm = .ok arm' ↔ arm' = arm ∧ ∃ r, Range.read .named arm = .ok r := by
  unfold validated
  cases Range.read .named arm with
  | error fault => simp
  | ok r => simp [eq_comm]

/-- **Which clauses have an arm, and which arm it is.** -/
theorem toArm_eq_ok_iff : toArm clause = .ok arm ↔
    StandsFor (closeOperator (Text.trim clause)) arm ∧ ∃ r, Range.read .named arm = .ok r := by
  simp only [toArm, guard_eq_ok_iff, bind_eq_ok_iff]
  rw [← closeOperator_eq_nil_iff]
  generalize closeOperator (Text.trim clause) = closed
  constructor
  · rintro ⟨hne, ends, hends, h⟩
    cases ends with
    | none =>
      simp only [guard_eq_ok_iff] at h
      obtain ⟨hstar, hle, -, hblank, h⟩ := h
      obtain ⟨rfl, hr⟩ := validated_eq_ok_iff.mp h
      exact ⟨.single hne (by simpa using hblank) hstar (by simpa using hle), hr⟩
    | some ends =>
      obtain ⟨first, last⟩ := ends
      obtain ⟨hfirst, hlast, rfl⟩ := hyphenEnds_eq_ok_some_iff.mp hends
      obtain ⟨rfl, hr⟩ := validated_eq_ok_iff.mp h
      exact ⟨.hyphen hfirst hlast rfl, hr⟩
  · rintro ⟨h, hr⟩
    refine ⟨h.ne_nil, ?_⟩
    cases h with
    | hyphen hfirst hlast hclosed =>
      exact ⟨_, hyphenEnds_eq_ok_some_iff.mpr ⟨hfirst, hlast, hclosed⟩,
        validated_eq_ok_iff.mpr ⟨hclosed, hclosed ▸ hr⟩⟩
    | single _ hblank hstar hle =>
      -- Without a blank, the checks for hyphens have nothing to find.
      have hcontains : ∀ {part : Text}, ' ' ∈ part → contains part closed = false := by
        intro part hpart
        simp [contains, Text.pieces_of_not_mem hpart hblank]
      refine ⟨_, hyphenEnds_eq_ok_none_iff.mpr (Text.pieces_of_not_mem (by decide) hblank), ?_⟩
      simp only [guard_eq_ok_iff]
      exact ⟨hstar, by simpa using hle, by simp [hcontains], by simpa using hblank,
        validated_eq_ok_iff.mpr ⟨rfl, hr⟩⟩

/-! ### Arms stand for themselves -/

namespace StandsFor

theorem blank_notMem_withCaret (h : ' ' ∉ text) : ' ' ∉ withCaret text := fun hmem =>
  (mem_withCaret hmem).elim (by decide) h

/-- **An arm stands for itself.** -/
theorem self (h : StandsFor clause arm) : StandsFor arm arm := by
  cases h with
  | hyphen hfirst hlast hclause => exact .hyphen hfirst hlast hclause
  | single hne hblank hstar hle =>
    have hself : StandsFor (withCaret clause) (withCaret (withCaret clause)) := by
      refine .single ?_ (blank_notMem_withCaret hblank) ?_ ?_
      all_goals
        unfold withCaret
        split
        · simp [Operator.write]
        · assumption
    rwa [withCaret_withCaret] at hself

/-- An arm has no blank behind its operator. -/
theorem closeOperator_eq (h : StandsFor clause arm) : closeOperator arm = arm := by
  cases h with
  | hyphen hfirst _ hclause =>
    obtain ⟨c, rest, hcons, hc⟩ := exists_eq_cons_of_isBareVersion hfirst
    rw [hclause, hcons]
    exact closeOperator_of_isDigit hc _
  | single _ hblank _ _ => exact closeOperator_of_notMem (blank_notMem_withCaret hblank)

/-- The characters of an arm are those of its clause, and perhaps a caret. -/
theorem mem_arm (h : StandsFor clause arm) {c : Char} (hc : c ∈ arm) : c = '^' ∨ c ∈ clause := by
  cases h with
  | hyphen => exact .inr hc
  | single => exact mem_withCaret hc

/-- An arm consists of words with single blanks between them, if its clause has no other blanks. -/
theorem isSpaced (h : StandsFor clause arm)
    (hblank : ∀ c ∈ clause, isBlank c = true → c = ' ') : Text.IsSpaced arm := by
  cases h with
  | hyphen hfirst hlast hclause =>
    rw [hclause]
    exact Text.isSpaced_hyphen (isWord_of_isBareVersion hfirst) (isWord_of_isBareVersion hlast)
  | single hne hnot _ _ =>
    refine Text.isSpaced_of_isWord ⟨?_, fun c hc => ?_⟩
    · unfold withCaret
      split
      · simp [Operator.write]
      · exact hne
    · rcases mem_withCaret hc with rfl | hc
      · rfl
      · by_contra hc'
        obtain rfl := hblank c hc (by simpa using hc')
        exact hnot hc

end StandsFor

/-- **The arm of a clause is a clause of the same kind, and its own arm.** -/
theorem toArm_arm (h : toArm clause = .ok arm) (hclause : Text.IsSpaced clause) :
    Text.IsSpaced arm ∧ toArm arm = .ok arm := by
  obtain ⟨hstands, hr⟩ := toArm_eq_ok_iff.mp h
  rw [hclause.trim_eq] at hstands
  have hspaced : Text.IsSpaced arm :=
    hstands.isSpaced fun c hc => hclause.eq_of_isBlank (mem_closeOperator hc)
  refine ⟨hspaced, toArm_eq_ok_iff.mpr ⟨?_, hr⟩⟩
  rw [hspaced.trim_eq, hstands.closeOperator_eq]
  exact hstands.self

end JuliaReleases.Clause
