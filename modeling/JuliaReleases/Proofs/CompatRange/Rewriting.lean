import Mathlib.Data.List.Infix
import Mathlib.Logic.Relation
import JuliaReleases.Proofs.CompatRange.Specifier
import JuliaReleases.Proofs.Text.Occurrence

/-!
# The normal form of a clause, step by step

`JuliaReleases.Specifier.normalizeClause` brings a clause into its normal form in one go: it spells
out two signs, cuts the clause into words and joins them. What it does to the clause can also be
said without words, as a rewriting system, `JuliaReleases.Specifier.Step`: a sign is spelled out
somewhere, a blank becomes a space, two spaces become one, or a space at an end is left out. The
order of the steps does not matter.

* Every step makes a clause lighter (`JuliaReleases.Specifier.Step.weight_lt`), so rewriting comes
  to an end.
* It ends at the tidy clauses without a sign (`JuliaReleases.Specifier.not_step_iff`), which are
  those in normal form (`JuliaReleases.Specifier.isNormal_iff`).
* No step changes the normal form (`JuliaReleases.Specifier.Step.normalizeClause_eq`), so it ends at
  the same clause on every way, namely at the normal form
  (`JuliaReleases.Specifier.rewritesTo_iff`).

For a specifier, `JuliaReleases.normal_clauses_of_specifier` says what its clauses are, that they
are the clauses of a specifier made of them, and that nothing else about the specifier counts when
its arms are looked for.
-/

namespace JuliaReleases

namespace Specifier

variable {clause text other normal part part' specifier : Text}

/-! ### Steps -/

/-- **What is rewritten**, wherever it stands in a clause. -/
inductive Rewrites : Text → Text → Prop
  /-- The sign `≥` is spelled out. -/
  | atLeast : Rewrites ['≥'] Operator.ge.write
  /-- The sign `≤` is spelled out. -/
  | atMost : Rewrites ['≤'] Operator.le.write
  /-- Any other blank becomes a space. -/
  | blank {b : Char} (hblank : isBlank b = true) (hne : b ≠ ' ') : Rewrites [b] [' ']
  /-- Two spaces become one. -/
  | spaces : Rewrites [' ', ' '] [' ']

/-- **One step of rewriting a clause.** -/
inductive Step : Text → Text → Prop
  /-- A part is rewritten. -/
  | inside (before : Text) {part part' : Text} (h : Rewrites part part') (after : Text) :
      Step (before ++ part ++ after) (before ++ part' ++ after)
  /-- A space at the front is left out. -/
  | front (rest : Text) : Step (' ' :: rest) rest
  /-- A space at the end is left out. -/
  | back (rest : Text) : Step (rest ++ [' ']) rest

/-- Any number of steps. -/
abbrev Steps : Text → Text → Prop :=
  Relation.ReflTransGen Step

/-- **Rewriting a clause to the end**: some steps, behind which there is no further one. -/
structure RewritesTo (text normal : Text) : Prop where
  steps : Steps text normal
  last : ∀ further, ¬ Step normal further

/-! ### Rewriting comes to an end -/

/-- The weight of a character: a sign is heavier than what it stands for, and a space is the
lightest blank. -/
def charWeight (c : Char) : ℕ :=
  if c = '≥' ∨ c = '≤' then 3 else if isBlank c = true ∧ c ≠ ' ' then 2 else 1

/-- The weight of a text. -/
def weight : Text → ℕ
  | [] => 0
  | c :: rest => charWeight c + weight rest

@[simp] theorem weight_append (before after : Text) :
    weight (before ++ after) = weight before + weight after := by
  induction before with
  | nil => rw [List.nil_append, weight, Nat.zero_add]
  | cons c before ih => rw [List.cons_append, weight, weight, ih, Nat.add_assoc]

theorem Rewrites.weight_lt (h : Rewrites part part') : weight part' < weight part := by
  cases h with
  | atLeast => decide
  | atMost => decide
  | @blank b hblank hne =>
    have hge : b ≠ '≥' := by rintro rfl; exact absurd hblank (by decide)
    have hle : b ≠ '≤' := by rintro rfl; exact absurd hblank (by decide)
    have hweight : weight [b] = 2 := by simp [weight, charWeight, hge, hle, hblank, hne]
    rw [hweight]
    decide
  | spaces => decide

/-- **A step makes a clause lighter.** -/
theorem Step.weight_lt (h : Step text other) : weight other < weight text := by
  have hspace : weight [' '] = 1 := by decide
  cases h with
  | inside before hpart after =>
    have hlt := hpart.weight_lt
    rw [weight_append, weight_append, weight_append, weight_append]
    omega
  | front =>
    rw [← List.singleton_append, weight_append, hspace]
    omega
  | back =>
    rw [weight_append, hspace]
    omega

theorem Steps.weight_le (h : Steps text other) : weight other ≤ weight text := by
  induction h with
  | refl => exact le_rfl
  | tail _ hstep ih => exact hstep.weight_lt.le.trans ih

/-- **Where rewriting ends**: at the tidy clauses without a sign. -/
theorem not_step_iff :
    (∀ further, ¬ Step text further) ↔ '≥' ∉ text ∧ '≤' ∉ text ∧ Text.IsTidy text := by
  constructor
  · intro h
    have hinside : ∀ {part part'}, Rewrites part part' → ¬ part <:+: text := by
      rintro part part' hpart ⟨before, after, rfl⟩
      exact h _ (.inside before hpart after)
    have hchar : ∀ {c part'}, Rewrites [c] part' → c ∉ text := fun hpart hmem =>
      hinside hpart ((List.singleton_infix_iff _ _).mpr hmem)
    have hspace : ∀ c ∈ text, isBlank c = true → c = ' ' := by
      intro c hc hblank
      by_contra hne
      exact hchar (.blank hblank hne) hc
    refine ⟨hchar .atLeast, hchar .atMost, fun c hc => ?_, fun c hc => ?_, hspace,
      hinside .spaces⟩
    · by_contra hblank
      obtain ⟨rest, rfl⟩ := List.head?_eq_some_iff.mp hc
      obtain rfl := hspace c (by simp) (by simpa using hblank)
      exact h _ (.front rest)
    · by_contra hblank
      obtain ⟨rest, rfl⟩ := List.getLast?_eq_some_iff.mp hc
      obtain rfl := hspace c (by simp) (by simpa using hblank)
      exact h _ (.back rest)
  · rintro ⟨hge, hle, htidy⟩ further hstep
    cases hstep with
    | inside before hpart after =>
      cases hpart with
      | atLeast => exact hge (by simp)
      | atMost => exact hle (by simp)
      | blank hblank hne => exact hne (htidy.space _ (by simp) hblank)
      | spaces => exact htidy.single ⟨before, after, rfl⟩
    | front => exact absurd (htidy.front ' ' rfl) (by decide)
    | back => exact absurd (htidy.back ' ' (by simp)) (by decide)

/-! ### The normal form is kept, and reached -/

/-- Blanks count as a separator of words only. -/
theorem words_spell_separated {blanks : Text} (h : ∀ c ∈ blanks, isBlank c = true)
    (hne : blanks ≠ []) (before after : Text) :
    Text.words (spell (before ++ blanks ++ after)) =
      Text.words (spell before) ++ Text.words (spell after) := by
  rw [spell_append, spell_append, spell_of_blank h, Text.words_separated_append h hne]

/-- A step keeps the words. -/
theorem Step.words_spell_eq (h : Step text other) :
    Text.words (spell text) = Text.words (spell other) := by
  have hspace : ∀ c ∈ [' '], isBlank c = true := List.forall_mem_singleton.mpr rfl
  have hone : ∀ before after, Text.words (spell (before ++ [' '] ++ after)) =
      Text.words (spell before) ++ Text.words (spell after) :=
    words_spell_separated hspace (List.cons_ne_nil _ _)
  cases h with
  | inside before hpart after =>
    cases hpart with
    | atLeast => rw [spell_append, spell_append, spell_append, spell_append]; rfl
    | atMost => rw [spell_append, spell_append, spell_append, spell_append]; rfl
    | blank hblank _ =>
      rw [hone, words_spell_separated (List.forall_mem_singleton.mpr hblank) (List.cons_ne_nil _ _)]
    | spaces =>
      rw [hone, words_spell_separated (List.forall_mem_cons.mpr ⟨rfl, hspace⟩)
        (List.cons_ne_nil _ _)]
  | front => exact hone [] other
  | back =>
    have hback := hone other []
    rw [List.append_nil] at hback
    exact hback.trans (List.append_nil _)

/-- **A step keeps the normal form.** -/
theorem Step.normalizeClause_eq (h : Step text other) :
    normalizeClause text = normalizeClause other := by
  rw [Specifier.normalizeClause_eq, Specifier.normalizeClause_eq, h.words_spell_eq]

theorem Steps.normalizeClause_eq (h : Steps text other) :
    normalizeClause text = normalizeClause other := by
  induction h with
  | refl => rfl
  | tail _ hstep ih => exact ih.trans hstep.normalizeClause_eq

/-- Where no step is left, there is the normal form. -/
theorem normalizeClause_of_not_step (h : ∀ further, ¬ Step text further) :
    normalizeClause text = text := by
  obtain ⟨hge, hle, htidy⟩ := not_step_iff.mp h
  rw [Specifier.normalizeClause_eq, spell_of_notMem hge hle]
  exact htidy.isSpaced

/-- **The normal form is reached.** -/
theorem steps_normalizeClause (text : Text) : Steps text (normalizeClause text) := by
  -- A step leads to a lighter clause with the same normal form.
  induction hweight : weight text using Nat.strong_induction_on generalizing text with
  | _ n ih =>
    subst hweight
    by_cases hlast : ∀ further, ¬ Step text further
    · rw [normalizeClause_of_not_step hlast]
    · obtain ⟨further, hstep⟩ := not_forall_not.mp hlast
      rw [hstep.normalizeClause_eq]
      exact .head hstep (ih _ hstep.weight_lt further rfl)

/-- There is no step behind the normal form, since it would have to lead back. -/
theorem not_step_normalizeClause (text further : Text) : ¬ Step (normalizeClause text) further := by
  intro hstep
  have hback : normalizeClause further = normalizeClause text := by
    rw [← hstep.normalizeClause_eq, ← (steps_normalizeClause text).normalizeClause_eq]
  have hle := (steps_normalizeClause further).weight_le
  rw [hback] at hle
  exact absurd hstep.weight_lt (by omega)

/-- **Rewriting to the end gives the normal form**, and nothing else. -/
theorem rewritesTo_iff : RewritesTo text normal ↔ normalizeClause text = normal := by
  constructor
  · intro h
    rw [h.steps.normalizeClause_eq, normalizeClause_of_not_step h.last]
  · rintro rfl
    exact ⟨steps_normalizeClause text, not_step_normalizeClause text⟩

/-- **The normal form of a clause is where rewriting ends**, in a text without a comma. -/
theorem isNormal_iff : IsNormal text ↔ ',' ∉ text ∧ ∀ further, ¬ Step text further := by
  constructor
  · intro h
    have hlast := not_step_normalizeClause text
    rw [normalizeClause_of_isNormal h] at hlast
    exact ⟨h.comma, hlast⟩
  · rintro ⟨hcomma, hlast⟩
    obtain ⟨hge, hle, htidy⟩ := not_step_iff.mp hlast
    exact ⟨hcomma, hge, hle, htidy.isSpaced⟩

/-! ### Blank clauses -/

theorem Rewrites.blank_iff (h : Rewrites part part') :
    (∀ c ∈ part, isBlank c = true) ↔ ∀ c ∈ part', isBlank c = true := by
  have hspace : ∀ c ∈ [' '], isBlank c = true := List.forall_mem_singleton.mpr rfl
  have hnot : ∀ {c rest}, isBlank c = false → ¬ ∀ d ∈ c :: rest, isBlank d = true := by
    intro c rest hc hall
    simp [hall c List.mem_cons_self] at hc
  cases h with
  | atLeast => exact iff_of_false (hnot rfl) (hnot rfl)
  | atMost => exact iff_of_false (hnot rfl) (hnot rfl)
  | blank hblank _ => exact iff_of_true (List.forall_mem_singleton.mpr hblank) hspace
  | spaces => exact iff_of_true (List.forall_mem_cons.mpr ⟨rfl, hspace⟩) hspace

/-- A step makes no clause blank that was not. -/
theorem Step.blank_iff (h : Step text other) :
    (∀ c ∈ text, isBlank c = true) ↔ ∀ c ∈ other, isBlank c = true := by
  have hspace : isBlank ' ' = true := by decide
  cases h with
  | inside before hpart after => simp only [List.forall_mem_append, hpart.blank_iff]
  | front => rw [List.forall_mem_cons, and_iff_right hspace]
  | back => rw [List.forall_mem_append, List.forall_mem_singleton, and_iff_left hspace]

theorem Steps.blank_iff (h : Steps text other) :
    (∀ c ∈ text, isBlank c = true) ↔ ∀ c ∈ other, isBlank c = true := by
  induction h with
  | refl => rfl
  | tail _ hstep ih => exact ih.trans hstep.blank_iff

/-- Only a blank clause becomes empty. -/
theorem normalizeClause_eq_nil_iff :
    normalizeClause text = [] ↔ ∀ c ∈ text, isBlank c = true := by
  refine ⟨fun h => ?_, normalizeClause_of_blank⟩
  rw [(steps_normalizeClause text).blank_iff, h]
  exact List.forall_mem_nil _

/-! ### The clauses of a specifier -/

theorem clauses_eq_nil_iff : clauses specifier = [] ↔ ∀ c ∈ specifier, isBlank c = true := by
  rw [← Text.trim_eq_nil_iff]
  refine ⟨fun h => ?_, clauses_of_blank⟩
  by_contra hblank
  rw [clauses_of_not_blank hblank] at h
  exact allClauses_ne_nil specifier h

theorem isNormal_of_mem_clauses (h : clause ∈ clauses specifier) : IsNormal clause := by
  by_cases hblank : Text.trim specifier = []
  · rw [clauses_of_blank hblank] at h
    exact absurd h List.not_mem_nil
  · rw [clauses_of_not_blank hblank] at h
    exact isNormal_of_mem_allClauses h

/-- A single clause is empty in a blank specifier only. -/
theorem trim_eq_nil_of_allClauses (h : allClauses specifier = [[]]) :
    Text.trim specifier = [] := by
  obtain ⟨piece, hsplit, hpiece⟩ := List.map_eq_singleton_iff.mp h
  have hjoined : [','].intercalate (specifier.splitOn ',') = specifier :=
    List.intercalate_splitOn ','
  rw [hsplit, List.intercalate_singleton] at hjoined
  rw [← hjoined, Text.trim_eq_nil_iff]
  exact normalizeClause_eq_nil_iff.mp hpiece

/-- **Normalizing again changes nothing.** -/
theorem clauses_intercalate_clauses (specifier : Text) :
    clauses ([','].intercalate (clauses specifier)) = clauses specifier := by
  by_cases hblank : Text.trim specifier = []
  · rw [clauses_of_blank hblank]
    rfl
  · have hagain : allClauses ([','].intercalate (allClauses specifier)) = allClauses specifier :=
      allClauses_intercalate (List.forall_mem_nil _) (allClauses_ne_nil specifier)
        fun _ => isNormal_of_mem_allClauses
    have hjoined : Text.trim ([','].intercalate (allClauses specifier)) ≠ [] := fun hnil =>
      hblank (trim_eq_nil_of_allClauses (hagain.symm.trans (allClauses_of_blank hnil)))
    rw [clauses_of_not_blank hblank, clauses_of_not_blank hjoined, hagain]

/-- The arms of some clauses, with what is wrong with the first one at fault. -/
def armsOfClauses : List Text → Except RangeError.Reason (List Text)
  | [] => .error .noClause
  | clauses => clauses.mapM fun clause => (Clause.toArm clause).mapError (.clause clause)

/-- **Only the clauses count** when the arms of a specifier are looked for; an error repeats the
text. -/
theorem arms_eq_armsOfClauses (specifier : Text) :
    Specifier.arms specifier = (armsOfClauses (clauses specifier)).mapError (⟨specifier, ·⟩) := by
  have harm : armOfClause specifier = fun clause =>
      ((Clause.toArm clause).mapError (.clause clause)).mapError (⟨specifier, ·⟩) := by
    funext clause
    unfold armOfClause
    cases Clause.toArm clause <;> rfl
  unfold Specifier.arms
  cases clauses specifier with
  | nil => rfl
  | cons clause others =>
    rw [harm]
    exact mapM_mapError_eq

end Specifier

open Specifier in
/-- **The clauses of a specifier are its pieces between commas, in normal form.** There are none if
and only if the specifier is blank. Otherwise each piece has its clause, which is what the piece is
rewritten to; and no clause has a comma, a sign that is spelled out, a blank at an end, or any blank
but single spaces. With commas between them the clauses are a specifier with the same clauses.
Another specifier with these clauses has the same arms, or it is refused for the same reason. -/
theorem normal_clauses_of_specifier (specifier : Text) :
    (clauses specifier = [] ↔ ∀ c ∈ specifier, isBlank c = true) ∧
    (¬ (∀ c ∈ specifier, isBlank c = true) →
      List.Forall₂ RewritesTo (specifier.splitOn ',') (clauses specifier)) ∧
    (∀ clause ∈ clauses specifier,
      ',' ∉ clause ∧ '≥' ∉ clause ∧ '≤' ∉ clause ∧ Text.IsTidy clause) ∧
    clauses ([','].intercalate (clauses specifier)) = clauses specifier ∧
    ∀ other, clauses other = clauses specifier →
      (∃ arms, Specifier.arms specifier = .ok arms ∧ Specifier.arms other = .ok arms) ∨
      ∃ reason, Specifier.arms specifier = .error ⟨specifier, reason⟩ ∧
        Specifier.arms other = .error ⟨other, reason⟩ := by
  refine ⟨clauses_eq_nil_iff, fun hblank => ?_, fun clause hclause => ?_,
    clauses_intercalate_clauses specifier, fun other hother => ?_⟩
  · rw [← Text.trim_eq_nil_iff] at hblank
    rw [clauses_of_not_blank hblank, allClauses, List.forall₂_map_right_iff, List.forall₂_same]
    exact fun piece _ => rewritesTo_iff.mpr rfl
  · obtain ⟨hcomma, hlast⟩ := isNormal_iff.mp (isNormal_of_mem_clauses hclause)
    exact ⟨hcomma, not_step_iff.mp hlast⟩
  · rw [arms_eq_armsOfClauses, arms_eq_armsOfClauses other, hother]
    cases armsOfClauses (clauses specifier) with
    | ok arms => exact .inl ⟨arms, rfl, rfl⟩
    | error reason => exact .inr ⟨reason, rfl, rfl⟩

open Specifier in
/-- Two ways to write the same two clauses. -/
theorem normal_clauses_of_specifier_signs :
    ¬ (∀ c ∈ "\t1.6 ,≥   2".toList, isBlank c = true) ∧
      clauses "1.6,>= 2".toList = clauses "\t1.6 ,≥   2".toList ∧
      List.Forall₂ RewritesTo ["\t1.6 ".toList, "≥   2".toList] ["1.6".toList, ">= 2".toList] ∧
      ∃ arms, Specifier.arms "\t1.6 ,≥   2".toList = .ok arms ∧
        Specifier.arms "1.6,>= 2".toList = .ok arms := by
  have hblank : ¬ (∀ c ∈ "\t1.6 ,≥   2".toList, isBlank c = true) := fun h =>
    absurd (h '1' (by decide)) (by decide)
  have hclauses : clauses "\t1.6 ,≥   2".toList = ["1.6".toList, ">= 2".toList] := rfl
  have hsame : clauses "1.6,>= 2".toList = ["1.6".toList, ">= 2".toList] := rfl
  have harms : Specifier.arms "\t1.6 ,≥   2".toList = .ok ["^1.6".toList, ">=2".toList] := rfl
  obtain ⟨-, hpieces, -, -, hother⟩ := normal_clauses_of_specifier "\t1.6 ,≥   2".toList
  rw [hclauses] at hpieces hother ⊢
  refine ⟨hblank, hsame, hpieces hblank, (hother _ hsame).resolve_right ?_⟩
  rintro ⟨reason, hrefused, -⟩
  rw [harms] at hrefused
  exact absurd hrefused nofun

end JuliaReleases
