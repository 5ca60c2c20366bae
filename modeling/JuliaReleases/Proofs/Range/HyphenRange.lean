import JuliaReleases.CompatRange.Error
import JuliaReleases.Proofs.Range.Caret

/-!
# A hyphen range is its two comparators

`A - B` and `>=A <=B` are read on different ways: the one is cut at the hyphen, and each end is a
version; the other is cut at blanks, and each word is an operator with a version behind it. Both
ways end at the same two readings of a partial version, as far as the ends have no blanks:

* `JuliaReleases.Range.IsToken.read_hyphen_eq_ok_iff` – the ends of a hyphen range;
* `JuliaReleases.Range.IsToken.read_pair_eq_ok_iff` – the words of a list of two comparators;
* `JuliaReleases.Term.read_append_eq_ok_iff` – a word behind `>=` or `<=`. These two operators are
  the ones that nothing written behind them can make longer, so the version starts right there.

What is left is that the lower end of a hyphen range and `>=` stand for the same bounds. If
prereleases are included they do not, since `>=` takes a full version literally; without them they
do (`JuliaReleases.PartialVersion.lowerEnd_named`).
-/

namespace JuliaReleases

variable {op : Operator} {text : Text}

/-! ### Words behind `>=` and `<=` -/

namespace Operator

/-- Nothing makes `>=` or `<=` a longer operator. -/
theorem split_append_of_mem (hop : op ∈ [Operator.ge, .le]) (text : Text) :
    split (op.write ++ text) = (some op, text) := by
  simp only [List.mem_cons, List.not_mem_nil, or_false] at hop
  rcases hop with rfl | rfl <;> rfl

theorem read?_append_of_mem (hop : op ∈ [Operator.ge, .le]) (hne : text ≠ []) :
    read? (op.write ++ text) = none := by
  refine Option.eq_none_iff_forall_ne_some.mpr fun op' hop' => hne ?_
  have hsplit : split (op.write ++ text) = (some op', []) := by
    rw [read?_eq_some_iff.mp hop', ← List.append_nil op'.write]
    exact split_append (by simp)
  rw [split_append_of_mem hop] at hsplit
  exact congrArg Prod.snd hsplit

end Operator

/-- **A word behind `>=` or `<=`** is read if and only if it is a partial version. -/
theorem Term.read_append_eq_ok_iff (hop : op ∈ [Operator.ge, .le]) {t : Term} :
    Term.read (op.write ++ text) = .ok t ↔
      ∃ p, PartialVersion.read text = .ok p ∧ t = ⟨.operand op, p⟩ := by
  have hsplit := Operator.split_append_of_mem hop text
  constructor
  · intro h
    have hrole : t.role = .operand op := by simpa [hsplit] using role_of_read h
    have hread : PartialVersion.read text = .ok t.version := by
      simpa [Operator.operand, hsplit] using (read_eq_ok h).2
    exact ⟨t.version, hread, by rw [← hrole]⟩
  · rintro ⟨p, hp, rfl⟩
    exact read_append_of_read hp op

/-! ### Ranges of two terms -/

namespace Range

variable {policy : PrereleasePolicy} {first last : Text} {r : Range}

namespace IsToken

variable (hfirst : IsToken first) (hlast : IsToken last)
include hfirst hlast

/-- **A hyphen range is a range** if and only if both of its ends are partial versions. -/
theorem read_hyphen_eq_ok_iff : Range.read policy (first ++ " - ".toList ++ last) = .ok r ↔
    ∃ p q, PartialVersion.read first = .ok p ∧ PartialVersion.read last = .ok q ∧
      r = ofTerms policy [⟨.lowerEnd, p⟩, ⟨.operand .le, q⟩] := by
  constructor
  · intro h
    obtain ⟨terms, hterms, rfl⟩ := exists_terms_of_read (pieces_hyphen hfirst hlast) h
    obtain ⟨p, q, hp, hq, rfl⟩ :=
      (readTerms_hyphen_eq_ok_iff hfirst.isWord hlast.isWord).mp hterms
    exact ⟨p, q, hp, hq, rfl⟩
  · rintro ⟨p, q, hp, hq, rfl⟩
    exact hfirst.read_hyphen hp hlast hq

/-- Two words with a blank between them are not cut into arms. -/
theorem pieces_pair : Text.pieces "||".toList (first ++ ' ' :: last) = [first ++ ' ' :: last] := by
  rw [Text.pieces_append_cons (by decide) (by decide) hfirst.pieces, hlast.pieces]
  rfl

section Pair

variable (hop : Operator.read? first = none) (hop' : Operator.read? last = none)
include hop hop'

/-- Two words are read word by word, unless one of them is a lone operator. -/
theorem readTerms_pair :
    Arm.readTerms (first ++ ' ' :: last) = [first, last].mapM Term.read := by
  have hpair : first ++ ' ' :: last = [' '].intercalate [first, last] := by simp
  have htrim : Text.trim (first ++ ' ' :: last) = first ++ ' ' :: last := by
    rw [hpair]
    exact Text.trim_intercalate (by simp [hfirst.isWord, hlast.isWord])
  have hwords : Text.words (first ++ ' ' :: last) = [first, last] := by
    rw [hpair]
    exact Text.words_intercalate (by simp [hfirst.isWord, hlast.isWord])
  have hhyphen : Text.pieces " - ".toList (first ++ ' ' :: last) = [first ++ ' ' :: last] :=
    (Text.pieces_eq_singleton_iff (by decide)).mpr
      (Text.not_hyphen_infix_two_words (Text.space_notMem_of_isWord hfirst.isWord)
        (Text.space_notMem_of_isWord hlast.isWord))
  rw [Arm.readTerms_eq_mapM htrim hhyphen (by simp [hwords, hop, hop']), hwords]

/-- **Two words are a range** if and only if each of them is a term. -/
theorem read_pair_eq_ok_iff : Range.read policy (first ++ ' ' :: last) = .ok r ↔
    ∃ t t', Term.read first = .ok t ∧ Term.read last = .ok t' ∧ r = ofTerms policy [t, t'] := by
  have hpieces := hfirst.pieces_pair hlast
  have hread := hfirst.readTerms_pair hlast hop hop'
  constructor
  · intro h
    obtain ⟨terms, hterms, rfl⟩ := exists_terms_of_read hpieces h
    rw [hread, mapM_eq_ok_iff_forall₂] at hterms
    obtain ⟨t, rest, ht, hrest, rfl⟩ := List.forall₂_cons_left_iff.mp hterms
    obtain ⟨t', rest', ht', hrest', rfl⟩ := List.forall₂_cons_left_iff.mp hrest
    obtain rfl := List.forall₂_nil_left_iff.mp hrest'
    exact ⟨t, t', ht, ht', rfl⟩
  · rintro ⟨t, t', ht, ht', rfl⟩
    refine read_of_readTerms hpieces ?_
    rw [hread, mapM_eq_ok_iff_forall₂]
    exact .cons ht (.cons ht' .nil)

end Pair

end IsToken

end Range

/-! ### The lower end -/

/-- Without prereleases the lower end of a hyphen range is meant like `>=`. -/
theorem PartialVersion.lowerEnd_named (p : PartialVersion) : p.lowerEnd .named = p.atLeast .named := by
  cases p with
  | wildcard | major a | minor a b => rfl
  | full a b c pre => rw [lowerEnd, startFull_named, atLeast]

namespace Range.IsToken

variable {first last : Text} {r : Range} (hfirst : IsToken first) (hlast : IsToken last)
include hfirst hlast

/-- The two comparators of a hyphen range, as a range of their own. -/
theorem read_comparators_eq_ok_iff {policy : PrereleasePolicy} :
    Range.read policy (Operator.ge.write ++ first ++ ' ' :: (Operator.le.write ++ last)) = .ok r ↔
      ∃ p q, PartialVersion.read first = .ok p ∧ PartialVersion.read last = .ok q ∧
        r = ofTerms policy [⟨.operand .ge, p⟩, ⟨.operand .le, q⟩] := by
  have hge : Operator.ge ∈ [Operator.ge, .le] := by decide
  have hle : Operator.le ∈ [Operator.ge, .le] := by decide
  rw [(hfirst.operator_append .ge).read_pair_eq_ok_iff (hlast.operator_append .le)
    (Operator.read?_append_of_mem hge hfirst.isWord.1)
    (Operator.read?_append_of_mem hle hlast.isWord.1)]
  simp only [Term.read_append_eq_ok_iff hge, Term.read_append_eq_ok_iff hle]
  constructor
  · rintro ⟨-, -, ⟨p, hp, rfl⟩, ⟨q, hq, rfl⟩, rfl⟩
    exact ⟨p, q, hp, hq, rfl⟩
  · rintro ⟨p, q, hp, hq, rfl⟩
    exact ⟨_, _, ⟨p, hp, rfl⟩, ⟨q, hq, rfl⟩, rfl⟩

theorem read_hyphen_iff_read_comparators :
    Range.read .named (first ++ " - ".toList ++ last) = .ok r ↔
      Range.read .named (Operator.ge.write ++ first ++ ' ' :: (Operator.le.write ++ last)) =
        .ok r := by
  have hbounds : ∀ p : PartialVersion,
      Term.bounds .named ⟨.lowerEnd, p⟩ = Term.bounds .named ⟨.operand .ge, p⟩ :=
    PartialVersion.lowerEnd_named
  have hterms : ∀ p q : PartialVersion, ofTerms .named [⟨.lowerEnd, p⟩, ⟨.operand .le, q⟩] =
      ofTerms .named [⟨.operand .ge, p⟩, ⟨.operand .le, q⟩] := fun p q => by
    simp only [ofTerms, Arm.ofTerms, List.flatMap_cons, hbounds p]
  simp only [hfirst.read_hyphen_eq_ok_iff hlast, hfirst.read_comparators_eq_ok_iff hlast, hterms]

end Range.IsToken

open Range in
/-- **A hyphen range is its two comparators.** Whatever words stand at its ends, behind `>=` and
`<=` they make the same range, or there is none either way. -/
theorem hyphen_range_is_two_comparators {first last : Text} (hfirst : Text.IsWord first)
    (hlast : Text.IsWord last) (hbar : ¬ "||".toList <:+: first) (hbar' : ¬ "||".toList <:+: last) :
    (Range.ofText .named (first ++ " - ".toList ++ last)).toOption =
      (Range.ofText .named (">=".toList ++ first ++ " <=".toList ++ last)).toOption := by
  have htoken : IsToken first := ⟨hfirst, (Text.pieces_eq_singleton_iff (by decide)).mpr hbar⟩
  have htoken' : IsToken last := ⟨hlast, (Text.pieces_eq_singleton_iff (by decide)).mpr hbar'⟩
  have hjoined : ">=".toList ++ first ++ " <=".toList ++ last =
      Operator.ge.write ++ first ++ ' ' :: (Operator.le.write ++ last) := by
    simp [Operator.write]
  refine toOption_eq_toOption fun r => ?_
  rw [hjoined, ofText, ofText, mapError_eq_ok_iff, mapError_eq_ok_iff]
  exact htoken.read_hyphen_iff_read_comparators htoken'

open Range in
/-- The ends are a version behind a `v` and a partial version with build metadata that look like
parts of the marks. -/
theorem hyphen_range_is_two_comparators_build :
    Text.IsWord "v1.2.3-rc1".toList ∧ Text.IsWord "1.x+|-".toList ∧
      ¬ "||".toList <:+: "v1.2.3-rc1".toList ∧ ¬ "||".toList <:+: "1.x+|-".toList ∧
      (Range.ofText .named "v1.2.3-rc1 - 1.x+|-".toList).toOption =
        (Range.ofText .named ">=v1.2.3-rc1 <=1.x+|-".toList).toOption := by
  have hfirst : Text.IsWord "v1.2.3-rc1".toList := by decide
  have hlast : Text.IsWord "1.x+|-".toList := by decide
  have hbar : ¬ "||".toList <:+: "v1.2.3-rc1".toList :=
    (Text.pieces_eq_singleton_iff (by decide)).mp rfl
  have hbar' : ¬ "||".toList <:+: "1.x+|-".toList :=
    (Text.pieces_eq_singleton_iff (by decide)).mp rfl
  exact ⟨hfirst, hlast, hbar, hbar', hyphen_range_is_two_comparators hfirst hlast hbar hbar'⟩

end JuliaReleases
