import JuliaReleases.Proofs.Text.Cutting

/-!
# Where a separator occurs in a text

A separator occurs in a text if it is an infix of it, `separator <:+: text`. The statements here
follow an occurrence through the ways in which texts are put together and cut:

* `JuliaReleases.Text.infix_append_cons_iff` – it does not reach across a character that is none of
  its own, so joining texts at such a character, or with single blanks, makes no new occurrence, and
  an occurrence at the end is one at the end of the last text
  (`JuliaReleases.Text.suffix_append_cons_intercalate_iff`);
* `JuliaReleases.Text.infix_words_iff` – neither does normalizing the blanks of a text;
* `JuliaReleases.Text.IsTidy.isSpaced` – a text is words with single blanks between them if no
  blank is at an end and none but single spaces occur;
* `JuliaReleases.Text.pieces_eq_singleton_iff` – a text is cut at a separator if and only if the
  separator occurs in it, and it occurs in none of the pieces
  (`JuliaReleases.Text.not_infix_of_mem_pieces`).
-/

namespace JuliaReleases.Text

variable {separator before after text : Text} {d : Char}

theorem not_infix_nil (hne : separator ≠ []) : ¬ separator <:+: [] := fun h =>
  hne (List.eq_nil_of_infix_nil h)

/-- **An occurrence does not reach across a character that is none of its own.** -/
theorem infix_append_cons_iff (hd : d ∉ separator) (hne : separator ≠ []) :
    separator <:+: before ++ d :: after ↔ separator <:+: before ∨ separator <:+: after := by
  induction before with
  | nil =>
    have hnil : ¬ separator <+: [] := by simpa using hne
    have hprefix : ¬ separator <+: d :: after := not_prefix_append_cons hd hnil after
    rw [List.nil_append, List.infix_cons_iff, or_iff_right hprefix,
      or_iff_right (not_infix_nil hne)]
  | cons e before ih =>
    have hprefix : separator <+: e :: before ++ d :: after ↔ separator <+: e :: before :=
      ⟨fun h => by_contra fun hnot => not_prefix_append_cons hd hnot after h,
        fun h => h.trans (List.prefix_append _ _)⟩
    rw [List.cons_append, List.infix_cons_iff, List.infix_cons_iff, ih, ← List.cons_append, hprefix,
      or_assoc]

/-- An occurrence at the end does not either. -/
theorem suffix_append_cons_iff (hd : d ∉ separator) :
    separator <:+ before ++ d :: after ↔ separator <:+ after := by
  constructor
  · intro h
    rcases List.suffix_or_suffix_of_suffix h (List.suffix_append before (d :: after)) with h | h
    · refine (List.suffix_cons_iff.mp h).resolve_left fun heq => hd ?_
      rw [heq]
      exact List.mem_cons_self
    · exact absurd (h.subset List.mem_cons_self) hd
  · exact fun h => h.trans ((List.suffix_cons d after).trans (List.suffix_append before _))

/-- What joined texts end in is what the last one ends in. -/
theorem suffix_append_cons_intercalate_iff {e : Char} (hd : d ∉ separator) (he : e ∉ separator)
    (ts : List Text) (t : Text) :
    separator <:+ before ++ e :: [d].intercalate (ts ++ [t]) ↔ separator <:+ t := by
  induction ts generalizing before e with
  | nil => rw [List.nil_append, List.intercalate_singleton, suffix_append_cons_iff he]
  | cons s ts ih =>
    have hsplit : before ++ e :: [d].intercalate (s :: ts ++ [t]) =
        (before ++ e :: s) ++ d :: [d].intercalate (ts ++ [t]) := by
      rw [List.cons_append, List.intercalate_cons_of_ne_nil (by simp)]
      simp
    rw [hsplit, ih hd]

/-- Characters that are none of the separator's own do not matter at the front. -/
theorem infix_append_iff_of_disjoint (h : ∀ c ∈ before, c ∉ separator) (hne : separator ≠ []) :
    separator <:+: before ++ after ↔ separator <:+: after := by
  induction before with
  | nil => rfl
  | cons e before ih =>
    obtain ⟨he, hbefore⟩ := List.forall_mem_cons.mp h
    have hcons : separator <:+: [] ++ e :: (before ++ after) ↔ _ := infix_append_cons_iff he hne
    rw [List.cons_append, ← List.nil_append (e :: _), hcons, or_iff_right (not_infix_nil hne),
      ih hbefore]

/-- And neither do they at the end. -/
theorem infix_append_iff_of_disjoint_right (h : ∀ c ∈ after, c ∉ separator) (hne : separator ≠ []) :
    separator <:+: before ++ after ↔ separator <:+: before := by
  cases after with
  | nil => rw [List.append_nil]
  | cons e after =>
    obtain ⟨he, hafter⟩ := List.forall_mem_cons.mp h
    have hnone : ¬ separator <:+: after := by
      rw [← List.append_nil after, infix_append_iff_of_disjoint hafter hne]
      exact not_infix_nil hne
    rw [infix_append_cons_iff he hne, or_iff_left hnone]

/-- Joined texts have the occurrences of the parts. -/
theorem infix_intercalate_iff (hd : d ∉ separator) (hne : separator ≠ []) {ts : List Text} :
    separator <:+: [d].intercalate ts ↔ ∃ t ∈ ts, separator <:+: t := by
  induction ts with
  | nil => simpa using hne
  | cons t ts ih =>
    cases ts with
    | nil => simp
    | cons t' ts =>
      rw [List.intercalate_cons_cons, List.append_assoc, List.singleton_append,
        infix_append_cons_iff hd hne, ih]
      simp only [List.exists_mem_cons_iff]

/-- Two words with a blank between them have no room for a hyphen with blanks on both sides. -/
theorem not_hyphen_infix_two_words {first last : Text} (hfirst : ' ' ∉ first) (hlast : ' ' ∉ last) :
    ¬ " - ".toList <:+: first ++ ' ' :: last := by
  intro h
  have hcount := h.sublist.count_le ' '
  rw [List.count_append, List.count_cons_self, List.count_eq_zero_of_not_mem hfirst,
    List.count_eq_zero_of_not_mem hlast] at hcount
  exact absurd hcount (by decide)

/-- **An induction that cuts a text in the middle**: a text has no character of a certain kind, or
it has one, with two shorter texts around it. -/
theorem induction_at {p : Char → Prop} {motive : Text → Prop}
    (free : ∀ text, (∀ c ∈ text, ¬ p c) → motive text)
    (found : ∀ front c rest, p c → motive front → motive rest → motive (front ++ c :: rest))
    (text : Text) : motive text := by
  induction hlength : text.length using Nat.strong_induction_on generalizing text with
  | _ n ih =>
    by_cases h : ∃ c ∈ text, p c
    · obtain ⟨c, hmem, hc⟩ := h
      obtain ⟨front, rest, rfl⟩ := List.append_of_mem hmem
      rw [List.length_append, List.length_cons] at hlength
      exact found front c rest hc (ih front.length (by omega) front rfl)
        (ih rest.length (by omega) rest rfl)
    · exact free text fun c hmem hc => h ⟨c, hmem, hc⟩

section Words

variable (hblank : ∀ c ∈ separator, isBlank c = false) (hne : separator ≠ [])
include hblank hne

/-- What occurs in a text occurs in one of its words, if there are no blanks in the separator. -/
theorem exists_word_infix_iff : (∃ w ∈ words text, separator <:+: w) ↔ separator <:+: text := by
  have hout : ∀ c, isBlank c = true → c ∉ separator := fun c hc hmem => by
    simp [hblank c hmem] at hc
  induction text using induction_at (p := (isBlank · = true)) with
  | free text hfree =>
    by_cases hnil : text = []
    · subst hnil
      exact iff_of_false (by simp [words_of_blank]) (not_infix_nil hne)
    · rw [words_of_isWord ⟨hnil, fun c hc => by simpa using hfree c hc⟩]
      simp
  | found front c rest hc hfront hrest =>
    rw [words_append_cons hc, infix_append_cons_iff (hout c hc) hne]
    simp only [List.mem_append, or_and_right, exists_or, hfront, hrest]

/-- **Normalizing the blanks of a text keeps its occurrences.** -/
theorem infix_words_iff :
    separator <:+: [' '].intercalate (words text) ↔ separator <:+: text := by
  have hout : ' ' ∉ separator := fun hmem => absurd (hblank ' ' hmem) (by decide)
  rw [infix_intercalate_iff hout hne, exists_word_infix_iff hblank hne]

end Words

/-- A word is a part of the text. -/
theorem infix_of_mem_words {word : Text} (h : word ∈ words text) : word <:+: text := by
  have hword := isWord_of_mem_words h
  exact (exists_word_infix_iff hword.2 hword.1).mp ⟨word, h, List.infix_rfl⟩

/-! ### Tidy texts -/

/-- **A tidy text**: there is no blank at either end, no blank but the space, and no space directly
behind another. -/
structure IsTidy (text : Text) : Prop where
  front : ∀ c ∈ text.head?, isBlank c = false
  back : ∀ c ∈ text.getLast?, isBlank c = false
  space : ∀ c ∈ text, isBlank c = true → c = ' '
  single : ¬ [' ', ' '] <:+: text

/-- In front of a space in a tidy text there is a tidy text. -/
theorem IsTidy.before_space (h : IsTidy (before ++ ' ' :: after)) :
    before ≠ [] ∧ IsTidy before := by
  have hne : before ≠ [] := by
    rintro rfl
    exact absurd (h.front ' ' rfl) (by decide)
  have hfront : ∀ c ∈ before.head?, isBlank c = false := by
    rw [← List.head?_append_of_ne_nil _ hne]
    exact h.front
  have hspace : ∀ c ∈ before, isBlank c = true → c = ' ' := fun c hc =>
    h.space c (List.mem_append_left _ hc)
  have hback : ∀ c ∈ before.getLast?, isBlank c = false := by
    intro c hc
    by_contra hblank
    obtain ⟨more, rfl⟩ := List.getLast?_eq_some_iff.mp hc
    -- The blank would be a space directly in front of the space.
    obtain rfl := hspace c (by simp) (by simpa using hblank)
    exact h.single ⟨more, after, by simp⟩
  exact ⟨hne, hfront, hback, hspace, fun hdouble =>
    h.single (hdouble.trans (List.prefix_append _ _).isInfix)⟩

/-- And so there is behind it. -/
theorem IsTidy.after_space (h : IsTidy (before ++ ' ' :: after)) : after ≠ [] ∧ IsTidy after := by
  rw [List.append_cons] at h
  have hne : after ≠ [] := by
    rintro rfl
    exact absurd (h.back ' ' (by simp)) (by decide)
  have hspace : ∀ c ∈ after, isBlank c = true → c = ' ' := fun c hc =>
    h.space c (List.mem_append_right _ hc)
  have hfront : ∀ c ∈ after.head?, isBlank c = false := by
    intro c hc
    by_contra hblank
    obtain ⟨more, rfl⟩ := List.head?_eq_some_iff.mp hc
    obtain rfl := hspace c List.mem_cons_self (by simpa using hblank)
    exact h.single ⟨before, more, by simp⟩
  have hback : ∀ c ∈ after.getLast?, isBlank c = false := by
    rw [← List.getLast?_append_of_ne_nil _ hne]
    exact h.back
  exact ⟨hne, hfront, hback, hspace, fun hdouble =>
    h.single (hdouble.trans (List.suffix_append _ _).isInfix)⟩

/-- **A tidy text is its words with single blanks between them.** -/
theorem IsTidy.isSpaced (h : IsTidy text) : IsSpaced text := by
  induction text using induction_at (p := (isBlank · = true)) with
  | free text hfree =>
    by_cases hnil : text = []
    · rw [hnil]
      rfl
    · exact isSpaced_of_isWord ⟨hnil, fun c hc => by simpa using hfree c hc⟩
  | found front c rest hc hfront hrest =>
    obtain rfl := h.space c (by simp) hc
    obtain ⟨hne, hbefore⟩ := h.before_space
    obtain ⟨hne', hafter⟩ := h.after_space
    -- A part that is spaced and not empty has a word.
    have hwords : ∀ {t : Text}, t ≠ [] → IsSpaced t → words t ≠ [] := by
      intro t ht hspaced hnil
      rw [IsSpaced, hnil] at hspaced
      exact ht hspaced.symm
    have hjoined : [' '].intercalate (words front ++ words rest) =
        [' '].intercalate (words front) ++ [' '] ++ [' '].intercalate (words rest) :=
      intercalate_append _ (hwords hne (hfront hbefore)) (hwords hne' (hrest hafter))
    rw [IsSpaced, words_append_cons hc, hjoined, hfront hbefore, hrest hafter, List.append_assoc,
      List.singleton_append]

/-! ### At the separator -/

/-- **A text is cut only where the separator occurs.** -/
theorem pieces_eq_singleton_iff (hne : separator ≠ []) :
    pieces separator text = [text] ↔ ¬ separator <:+: text := by
  induction text using pieces_induction hne with
  | nil => exact iff_of_true rfl (not_infix_nil hne)
  | found rest ih =>
    refine iff_of_false (fun h => ?_) (not_not.mpr (List.prefix_append _ _).isInfix)
    rw [pieces_append hne] at h
    exact pieces_ne_nil separator rest (List.cons.inj h).2
  | passed c rest hprefix ih =>
    obtain ⟨first, others, hpieces⟩ := List.exists_cons_of_ne_nil (pieces_ne_nil separator rest)
    rw [List.infix_cons_iff, or_iff_right hprefix, ← ih, pieces_cons hprefix, hpieces]
    simp

/-- There is a single piece if and only if the separator does not occur. -/
theorem length_pieces_eq_one_iff (hne : separator ≠ []) :
    (pieces separator text).length = 1 ↔ ¬ separator <:+: text := by
  rw [← pieces_eq_singleton_iff hne]
  refine ⟨fun h => ?_, fun h => by rw [h]; rfl⟩
  obtain ⟨piece, hpieces⟩ := List.length_eq_one_iff.mp h
  have htext := intercalate_pieces hne text
  rw [hpieces, List.intercalate_singleton] at htext
  rw [hpieces, htext]

/-- The first piece is the front of the text. -/
theorem prefix_of_pieces_eq_cons (hne : separator ≠ []) {first : Text} {others : List Text}
    (h : pieces separator text = first :: others) : first <+: text := by
  obtain ⟨more, hmore⟩ := exists_intercalate_cons separator first others
  rw [← h, intercalate_pieces hne] at hmore
  exact ⟨more, hmore.symm⟩

/-- A piece is a part of the text. -/
theorem infix_of_mem_pieces (hne : separator ≠ []) {piece : Text}
    (h : piece ∈ pieces separator text) : piece <:+: text := by
  induction text using pieces_induction hne generalizing piece with
  | nil =>
    obtain rfl := List.mem_singleton.mp h
    exact List.infix_rfl
  | found rest ih =>
    rw [pieces_append hne] at h
    rcases List.mem_cons.mp h with rfl | h
    · exact List.nil_infix
    · exact (ih h).trans (List.suffix_append _ _).isInfix
  | passed c rest hprefix ih =>
    obtain ⟨first, others, hpieces⟩ := List.exists_cons_of_ne_nil (pieces_ne_nil separator rest)
    have hcons := pieces_cons hprefix
    rw [hpieces, List.modifyHead_cons] at hcons
    rw [hcons] at h
    rcases List.mem_cons.mp h with rfl | h
    · exact (prefix_of_pieces_eq_cons hne hcons).isInfix
    · exact (ih (hpieces ▸ List.mem_cons_of_mem _ h)).trans (List.suffix_cons _ _).isInfix

/-- The separator occurs in none of the pieces. -/
theorem not_infix_of_mem_pieces (hne : separator ≠ []) {piece : Text}
    (h : piece ∈ pieces separator text) : ¬ separator <:+: piece := by
  induction text using pieces_induction hne generalizing piece with
  | nil =>
    obtain rfl := List.mem_singleton.mp h
    exact not_infix_nil hne
  | found rest ih =>
    rw [pieces_append hne] at h
    rcases List.mem_cons.mp h with rfl | h
    · exact not_infix_nil hne
    · exact ih h
  | passed c rest hprefix ih =>
    obtain ⟨first, others, hpieces⟩ := List.exists_cons_of_ne_nil (pieces_ne_nil separator rest)
    have hcons := pieces_cons hprefix
    rw [hpieces, List.modifyHead_cons] at hcons
    rw [hcons] at h
    rcases List.mem_cons.mp h with rfl | h
    · -- What starts in the first piece starts in the text, where it would have been found.
      rw [List.infix_cons_iff]
      rintro (hc | hc)
      · exact hprefix (hc.trans (prefix_of_pieces_eq_cons hne hcons))
      · exact ih (hpieces ▸ List.mem_cons_self) hc
    · exact ih (hpieces ▸ List.mem_cons_of_mem _ h)

end JuliaReleases.Text
