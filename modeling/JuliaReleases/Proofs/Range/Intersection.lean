import JuliaReleases.Proofs.Range.Grammar
import JuliaReleases.Proofs.Range.Meaning
import JuliaReleases.Proofs.Range.Union

/-!
# Union and intersection

Between two ranges, `||` makes their union, and a blank makes their intersection if each of them is
a single list of comparators, `JuliaReleases.Range.IsConjunction`. Both say something on texts: what
is written in front of the joint and behind it is read as it is read on its own
(`JuliaReleases.bars_unite_and_blanks_intersect`).

For `||` this is a special case of `JuliaReleases.Range.read_intercalate`. At a blank there are
three things that could reach across it:

* the mark `||` has no blank in it;
* a lone operator takes the word behind it, but the last word of a range that is read is not one,
  so the words on both sides make their tokens apart (`JuliaReleases.Glues.append`);
* the mark of a hyphen range has blanks in it, and `1 -` or `- 2` would complete it. But then a
  hyphen is a word of one of the two sides (`JuliaReleases.Text.hyphen_mem_words`), where it would
  have to be read as a version (`JuliaReleases.Arm.hyphen_notMem_words`).

So the terms of both sides are put together, and for a version that goes by the bounds alone this
is the intersection. A prerelease that has to be named is an exception: it is enough that one of the
sides names it.
-/

namespace JuliaReleases

/-- A hyphen with blanks around it is a word. -/
theorem Text.hyphen_mem_words {text : Text} (h : " - ".toList <:+: text) : ['-'] ∈ words text := by
  obtain ⟨front, rest, rfl⟩ := h
  have hsplit : front ++ " - ".toList ++ rest = front ++ ' ' :: (['-'] ++ ' ' :: rest) := by simp
  have hword : words ['-'] = [['-']] := words_of_isWord (by decide)
  rw [hsplit, words_append_cons rfl, words_append_cons rfl, hword]
  simp

/-- **Words on both sides make their tokens apart.** -/
theorem Glues.append {words tokens words' tokens' : List Text} (h : Glues words tokens)
    (h' : Glues words' tokens') : Glues (words ++ words') (tokens ++ tokens') := by
  induction h with
  | nil => exact h'
  | word hword _ ih => exact .word hword ih
  | operator hword _ ih => exact .operator hword ih

namespace Arm

variable {text : Text} {terms : List Term} (h : ¬ " - ".toList <:+: Text.trim text)
include h

/-- A hyphen is no word of an arm that is no hyphen range, since it is no version. -/
theorem hyphen_notMem_words (hterms : readTerms text = .ok terms) : ['-'] ∉ Text.words text := by
  intro hword
  have hversion : ['-'] ∈ versionTexts text := by
    simp only [versionTexts, (Text.pieces_eq_singleton_iff (by decide)).mpr h, Text.words_trim]
    exact List.mem_map.mpr ⟨['-'], List.mem_filter.mpr ⟨hword, rfl⟩, rfl⟩
  obtain ⟨p, -, hp⟩ := exists_mem_of_mem_read (map_read_versionTexts hterms) hversion
  have herror : PartialVersion.read ['-'] = .error (.notANumber []) := rfl
  exact absurd (herror.symm.trans hp) (by simp)

end Arm

namespace Range

/-- Whether a text is neither cut into arms nor a hyphen range, so that it is read as one list of
comparators. -/
structure IsConjunction (text : Text) : Prop where
  bar : ¬ "||".toList <:+: text
  hyphen : ¬ " - ".toList <:+: text

variable {policy : PrereleasePolicy} {first last : Text} {r s : Range}

theorem IsConjunction.pieces (h : IsConjunction first) : Text.pieces "||".toList first = [first] :=
  (Text.pieces_eq_singleton_iff (by decide)).mpr h.bar

theorem IsConjunction.not_hyphen_infix_trim (h : IsConjunction first) :
    ¬ " - ".toList <:+: Text.trim first := fun hmark =>
  h.hyphen (hmark.trans (Text.trim_isInfix first))

section Blank

variable (hfirst : IsConjunction first) (hlast : IsConjunction last) {terms terms' : List Term}
  (hterms : Arm.readTerms first = .ok terms) (hterms' : Arm.readTerms last = .ok terms')
include hfirst hlast hterms hterms'

/-- Neither of the marks reaches across a blank. -/
theorem IsConjunction.append : IsConjunction (first ++ ' ' :: last) := by
  refine ⟨?_, fun hinfix => ?_⟩
  · rw [Text.infix_append_cons_iff (by decide) (by decide)]
    exact not_or.mpr ⟨hfirst.bar, hlast.bar⟩
  · have hword := Text.hyphen_mem_words hinfix
    rw [Text.words_append_cons (by decide)] at hword
    exact (List.mem_append.mp hword).elim
      (Arm.hyphen_notMem_words hfirst.not_hyphen_infix_trim hterms)
      (Arm.hyphen_notMem_words hlast.not_hyphen_infix_trim hterms')

/-- **A blank puts the terms of both sides together.** -/
theorem readTerms_append_blank :
    Arm.readTerms (first ++ ' ' :: last) = .ok (terms ++ terms') := by
  obtain ⟨tokens, hglues, hread⟩ := (Arm.readTerms_eq_ok_iff hfirst.not_hyphen_infix_trim).mp hterms
  obtain ⟨tokens', hglues', hread'⟩ := (Arm.readTerms_eq_ok_iff hlast.not_hyphen_infix_trim).mp hterms'
  have hboth : (tokens ++ tokens').map Term.read = (terms ++ terms').map .ok := by
    rw [List.map_append, List.map_append, hread, hread']
  have happend := hfirst.append hlast hterms hterms'
  rw [Arm.readTerms_eq_ok_iff happend.not_hyphen_infix_trim, Text.words_append_cons (by decide)]
  exact ⟨_, hglues.append hglues', hboth⟩

end Blank

/-- **A blank makes the intersection** of ranges that are lists of comparators, as far as versions
go by the bounds. -/
theorem exists_read_append_blank (hfirst : IsConjunction first) (hlast : IsConjunction last)
    (hr : Range.read policy first = .ok r) (hs : Range.read policy last = .ok s) :
    ∃ t, Range.read policy (first ++ ' ' :: last) = .ok t ∧
      ∀ v, policy.GoesByBounds v → (v ∈ t ↔ v ∈ r ∧ v ∈ s) := by
  obtain ⟨terms, hterms, rfl⟩ := exists_terms_of_read hfirst.pieces hr
  obtain ⟨terms', hterms', rfl⟩ := exists_terms_of_read hlast.pieces hs
  have hpieces := (hfirst.append hlast hterms hterms').pieces
  refine ⟨_, read_of_readTerms hpieces (readTerms_append_blank hfirst hlast hterms hterms'), ?_⟩
  intro v hv
  simp only [mem_ofTerms_iff_of_goesByBounds hv, List.forall_mem_append]

/-- Two ranges with `||` between them. -/
theorem intercalate_pair (first last : Text) :
    " || ".toList.intercalate [first, last] = first ++ " || ".toList ++ last := by
  simp

theorem exists_read_bars_iff : (∃ t, Range.read policy (first ++ " || ".toList ++ last) = .ok t) ↔
    (∃ r, Range.read policy first = .ok r) ∧ ∃ s, Range.read policy last = .ok s := by
  rw [← intercalate_pair, exists_read_intercalate_iff (by simp), List.forall_mem_cons,
    List.forall_mem_singleton]

/-- **`||` makes the union.** -/
theorem exists_read_bars (hr : Range.read policy first = .ok r)
    (hs : Range.read policy last = .ok s) :
    ∃ t, Range.read policy (first ++ " || ".toList ++ last) = .ok t ∧
      ∀ v, v ∈ t ↔ v ∈ r ∨ v ∈ s := by
  obtain ⟨t, ht⟩ := exists_read_bars_iff.mpr ⟨⟨r, hr⟩, s, hs⟩
  refine ⟨t, ht, fun v => ?_⟩
  rw [← intercalate_pair] at ht
  simp [mem_iff_of_read_intercalate (by simp) ht, hr, hs]

end Range

open Range in
/-- **`||` is union and a blank is intersection.** Two texts with `||` between them are a range if
and only if both of them are, and its members are the members of one of them. Two ranges of which
each is a list of comparators, with a blank between them, are a range, and its members are the
members of both: among all versions if prereleases are included, and among the releases in any
case. -/
theorem bars_unite_and_blanks_intersect (policy : PrereleasePolicy) (first last : Text) :
    ((∃ t, Range.read policy (first ++ " || ".toList ++ last) = .ok t) ↔
      (∃ r, Range.read policy first = .ok r) ∧ ∃ s, Range.read policy last = .ok s) ∧
    ∀ r s, Range.read policy first = .ok r → Range.read policy last = .ok s →
      (∃ t, Range.read policy (first ++ " || ".toList ++ last) = .ok t ∧
        ∀ v, v ∈ t ↔ v ∈ r ∨ v ∈ s) ∧
      (IsConjunction first → IsConjunction last →
        ∃ t, Range.read policy (first ++ " ".toList ++ last) = .ok t ∧
          ∀ v, policy.GoesByBounds v → (v ∈ t ↔ v ∈ r ∧ v ∈ s)) := by
  refine ⟨exists_read_bars_iff, fun r s hr hs => ⟨exists_read_bars hr hs, ?_⟩⟩
  intro hfirst hlast
  have hblank : first ++ " ".toList ++ last = first ++ ' ' :: last := by simp
  rw [hblank]
  exact exists_read_append_blank hfirst hlast hr hs

open Range in
/-- Next to the joint there is build metadata with parts of the two marks. -/
theorem bars_unite_and_blanks_intersect_build :
    let first := ">= 1.6+|-".toList
    let last := "<1.8.0+-|".toList
    ∃ r s, Range.read .named first = .ok r ∧ Range.read .named last = .ok s ∧
      IsConjunction first ∧ IsConjunction last ∧
      (∃ t, Range.read .named (first ++ " || ".toList ++ last) = .ok t ∧
        ∀ v, v ∈ t ↔ v ∈ r ∨ v ∈ s) ∧
      ∃ t, Range.read .named (first ++ " ".toList ++ last) = .ok t ∧
        ∀ v, PrereleasePolicy.named.GoesByBounds v → (v ∈ t ↔ v ∈ r ∧ v ∈ s) := by
  intro first last
  have hnot : ∀ {separator text : Text}, separator ≠ [] → Text.pieces separator text = [text] →
      ¬ separator <:+: text := fun hne => (Text.pieces_eq_singleton_iff hne).mp
  have hfirst : IsConjunction first := ⟨hnot (by decide) rfl, hnot (by decide) rfl⟩
  have hlast : IsConjunction last := ⟨hnot (by decide) rfl, hnot (by decide) rfl⟩
  obtain ⟨hunion, hblank⟩ := (bars_unite_and_blanks_intersect .named first last).2 _ _ rfl rfl
  exact ⟨_, _, rfl, rfl, hfirst, hlast, hunion, hblank hfirst hlast⟩

end JuliaReleases
