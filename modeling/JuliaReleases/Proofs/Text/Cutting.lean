import Mathlib.Data.List.Basic
import Mathlib.Data.List.TakeWhile
import JuliaReleases.Text.Blank

/-!
# Texts that are put together and cut again

The printers of the library put texts together with separators, and its readers cut them at the
separators. This file gives, for each way of cutting, what it finds in a text that was put together:

* `JuliaReleases.Text.cut_append_cons` – the part in front of a mark that does not occur in it;
* `JuliaReleases.Text.pieces_append_of_not_mem` – a part in which no separator can start stays at
  the front of the first piece;
* `JuliaReleases.Text.words_intercalate` – words with single blanks between them; unless one of
  them starts like the rest of a separator, they are not cut apart in any other way
  (`JuliaReleases.Text.pieces_intercalate`);
* `JuliaReleases.Text.map_trim_pieces_intercalate` – the pieces of several texts, once blanks are
  trimmed off, where a separator with a blank on both sides stands between the texts.
-/

namespace JuliaReleases

namespace Text

/-! ### Texts that are put together -/

section Intercalate

variable (separator : Text)

/-- The first part is at the front. -/
theorem exists_intercalate_cons (t : Text) (ts : List Text) :
    ∃ rest, separator.intercalate (t :: ts) = t ++ rest := by
  cases ts with
  | nil => exact ⟨[], by rw [List.intercalate_singleton, List.append_nil]⟩
  | cons t' ts => exact ⟨_, by rw [List.intercalate_cons_cons, List.append_assoc]⟩

/-- The last part is at the end. -/
theorem exists_intercalate_concat (ts : List Text) (t : Text) :
    ∃ rest, separator.intercalate (ts ++ [t]) = rest ++ t := by
  induction ts with
  | nil => exact ⟨[], List.intercalate_singleton⟩
  | cons s ts ih =>
    obtain ⟨rest, hrest⟩ := ih
    refine ⟨s ++ separator ++ rest, ?_⟩
    rw [List.cons_append, List.intercalate_cons_of_ne_nil (by simp), hrest,
      List.append_assoc _ rest]

/-- Parts that are put together in two goes have a separator at the joint. -/
theorem intercalate_append {ts us : List Text} (hts : ts ≠ []) (hus : us ≠ []) :
    separator.intercalate (ts ++ us) =
      separator.intercalate ts ++ separator ++ separator.intercalate us := by
  induction ts with
  | nil => exact absurd rfl hts
  | cons t ts ih =>
    rw [List.cons_append, List.intercalate_cons_of_ne_nil (by simp [hus])]
    cases ts with
    | nil => simp
    | cons t' ts =>
      rw [ih (List.cons_ne_nil t' ts), List.intercalate_cons_cons]
      simp only [List.append_assoc]

end Intercalate

theorem mem_intercalate {c d : Char} {ts : List Text} (h : c ∈ [d].intercalate ts) :
    c = d ∨ ∃ t ∈ ts, c ∈ t := by
  induction ts with
  | nil => exact absurd h (by simp)
  | cons t ts ih =>
    cases ts with
    | nil =>
      rw [List.intercalate_singleton] at h
      exact .inr ⟨t, List.mem_cons_self, h⟩
    | cons t' ts =>
      rw [List.intercalate_cons_cons, List.append_assoc, List.mem_append] at h
      rcases h with h | h
      · exact .inr ⟨t, List.mem_cons_self, h⟩
      · rcases List.mem_cons.mp h with rfl | h
        · exact .inl rfl
        · rcases ih h with rfl | ⟨s, hs, hc⟩
          · exact .inl rfl
          · exact .inr ⟨s, List.mem_cons_of_mem _ hs, hc⟩

/-! ### At a single mark -/

theorem cut_of_not_mem {mark : Char} {text : Text} (h : mark ∉ text) :
    cut mark text = (text, none) := by
  induction text with
  | nil => rfl
  | cons c rest ih =>
    have hc : c ≠ mark := fun hc => h (hc ▸ List.mem_cons_self)
    rw [cut, if_neg hc, ih fun hmem => h (List.mem_cons_of_mem _ hmem)]

theorem cut_append_cons {mark : Char} {before : Text} (h : mark ∉ before) (after : Text) :
    cut mark (before ++ mark :: after) = (before, some after) := by
  induction before with
  | nil => rw [List.nil_append, cut, if_pos rfl]
  | cons c rest ih =>
    have hc : c ≠ mark := fun hc => h (hc ▸ List.mem_cons_self)
    rw [List.cons_append, cut, if_neg hc, ih fun hmem => h (List.mem_cons_of_mem _ hmem)]

theorem eq_append_of_dropPrefix? {start text rest : Text} (h : dropPrefix? start text = some rest) :
    text = start ++ rest := by
  unfold dropPrefix? at h
  split at h
  · next hprefix =>
    obtain ⟨rest', rfl⟩ := List.isPrefixOf_iff_prefix.mp hprefix
    rw [List.drop_left, Option.some.injEq] at h
    rw [h]
  · exact absurd h (by simp)

theorem dropPrefix?_append (start rest : Text) : dropPrefix? start (start ++ rest) = some rest := by
  rw [dropPrefix?, if_pos (by simp), List.drop_left]

theorem dropPrefix?_eq_none_iff {start text : Text} :
    dropPrefix? start text = none ↔ ¬ start <+: text := by
  rw [dropPrefix?, ← List.isPrefixOf_iff_prefix]
  split_ifs with h <;> simp [h]

/-- A first character that is not the mark stays at the front. -/
theorem cut_cons_fst {mark c : Char} (h : c ≠ mark) (rest : Text) :
    (cut mark (c :: rest)).1 = c :: (cut mark rest).1 := by
  rw [cut, if_neg h]

/-- What a cut leaves in front of the mark. -/
theorem cut_fst (mark : Char) (text : Text) :
    (cut mark text).1 = text.takeWhile fun c => c ≠ mark := by
  induction text with
  | nil => rfl
  | cons c rest ih =>
    by_cases hc : c = mark
    · rw [cut, if_pos hc, List.takeWhile_cons_of_neg (by simpa using hc)]
    · rw [cut_cons_fst hc, List.takeWhile_cons_of_pos (by simpa using hc), ih]

/-- What a cut leaves in front of the mark has no mark in it. -/
theorem not_mem_cut_fst (mark : Char) (text : Text) : mark ∉ (cut mark text).1 := by
  intro hmem
  rw [cut_fst] at hmem
  exact absurd (List.mem_takeWhile_imp hmem) (by simp)

/-- What a cut takes apart is put together again with the mark. -/
theorem append_cut (mark : Char) (text : Text) :
    (cut mark text).1 ++ (cut mark text).2.elim [] (mark :: ·) = text := by
  induction text with
  | nil => rfl
  | cons c rest ih =>
    by_cases hc : c = mark
    · rw [cut, if_pos hc, hc]
      rfl
    · rw [cut, if_neg hc]
      exact congrArg (c :: ·) ih

theorem eq_of_cut_eq_none {mark : Char} {text before : Text} (h : cut mark text = (before, none)) :
    before = text ∧ mark ∉ before := by
  have happend := append_cut mark text
  have hmark := not_mem_cut_fst mark text
  rw [h] at happend hmark
  exact ⟨by simpa using happend, hmark⟩

theorem eq_of_cut_eq_some {mark : Char} {text before after : Text}
    (h : cut mark text = (before, some after)) :
    before ++ mark :: after = text ∧ mark ∉ before := by
  have happend := append_cut mark text
  have hmark := not_mem_cut_fst mark text
  rw [h] at happend hmark
  exact ⟨happend, hmark⟩

/-- What a split has in front of the first mark. -/
theorem head?_splitOn (mark : Char) (text : Text) :
    (text.splitOn mark).head? = some (text.takeWhile fun c => c ≠ mark) := by
  induction text with
  | nil => simp
  | cons c rest ih =>
    rw [List.splitOn_cons_eq_if_modifyHead]
    by_cases hc : c = mark
    · rw [if_pos (by simpa using hc), List.takeWhile_cons_of_neg (by simpa using hc)]
      rfl
    · rw [if_neg (by simpa using hc), List.takeWhile_cons_of_pos (by simpa using hc),
        List.head?_modifyHead, ih]
      rfl

/-! ### At a separator -/

/-- There is always a piece. -/
theorem pieces_ne_nil (separator text : Text) : pieces separator text ≠ [] := by
  have hgo : ∀ skip, pieces.go separator skip text ≠ [] := by
    induction text with
    | nil => exact fun skip => by simp [pieces.go]
    | cons c rest ih =>
      intro skip
      cases skip with
      | succ skip => exact ih skip
      | zero =>
        rw [pieces.go]
        split
        · simp
        · obtain ⟨first, others, hpieces⟩ := List.exists_cons_of_ne_nil (ih 0)
          rw [hpieces]
          simp
  exact hgo 0

section Pieces

variable {c : Char} {separator before : Text}

/-- **The scan for a separator, as an induction**: a text is empty, or the separator stands at its
front, or its first character belongs to a piece. -/
theorem pieces_induction {motive : Text → Prop} (hne : separator ≠ []) (nil : motive [])
    (found : ∀ rest, motive rest → motive (separator ++ rest))
    (passed : ∀ c rest, ¬ separator <+: c :: rest → motive rest → motive (c :: rest))
    (text : Text) : motive text := by
  induction hlength : text.length using Nat.strong_induction_on generalizing text with
  | _ n ih =>
    subst hlength
    by_cases hprefix : separator <+: text
    · obtain ⟨rest, rfl⟩ := hprefix
      have hshorter : rest.length < (separator ++ rest).length := by
        have hpos := List.length_pos_of_ne_nil hne
        rw [List.length_append]
        omega
      exact found rest (ih _ hshorter rest rfl)
    · cases text with
      | nil => exact nil
      | cons c rest => exact passed c rest hprefix (ih _ (Nat.lt_succ_self _) rest rfl)

/-- Nothing is lost: the pieces with the separator between them are the text. -/
theorem intercalate_pieces (hne : separator ≠ []) (text : Text) :
    separator.intercalate (pieces separator text) = text := by
  induction text using pieces_induction hne with
  | nil => rfl
  | found rest ih =>
    rw [pieces_append hne, List.intercalate_cons_of_ne_nil (pieces_ne_nil separator rest), ih,
      List.nil_append]
  | passed c rest hprefix ih =>
    rw [pieces_cons hprefix]
    obtain ⟨first, others, hpieces⟩ := List.exists_cons_of_ne_nil (pieces_ne_nil separator rest)
    rw [hpieces] at ih
    rw [hpieces, List.modifyHead_cons]
    cases others with
    | nil => rw [List.intercalate_singleton] at ih ⊢; rw [ih]
    | cons second others =>
      rw [List.intercalate_cons_cons] at ih ⊢
      rw [List.cons_append, List.cons_append, ih]

/-- A text in which some character of the separator does not occur is one piece. -/
theorem pieces_of_not_mem {text : Text} (hc : c ∈ separator) (h : c ∉ text) :
    pieces separator text = [text] := by
  have htext := intercalate_pieces (List.ne_nil_of_mem hc) text
  obtain ⟨first, others, hpieces⟩ := List.exists_cons_of_ne_nil (pieces_ne_nil separator text)
  rw [hpieces] at htext ⊢
  cases others with
  | nil => rw [← htext, List.intercalate_singleton]
  | cons second others =>
    rw [List.intercalate_cons_cons] at htext
    have hmem : c ∈ text := by
      rw [← htext]
      simp [hc]
    exact absurd hmem h

/-- A part without the first character of the separator stays at the front of the first piece. -/
theorem pieces_append_of_not_mem (h : c ∉ before) (text : Text) :
    pieces (c :: separator) (before ++ text) =
      (pieces (c :: separator) text).modifyHead (before ++ ·) := by
  induction before with
  | nil =>
    rw [List.nil_append]
    cases pieces (c :: separator) text <;> rfl
  | cons d before ih =>
    have hprefix : ¬ c :: separator <+: d :: (before ++ text) := by
      intro hprefix
      obtain ⟨rfl, -⟩ := List.cons_prefix_cons.mp hprefix
      exact h List.mem_cons_self
    rw [List.cons_append, pieces_cons hprefix, ih fun hmem => h (List.mem_cons_of_mem _ hmem),
      List.modifyHead_modifyHead]
    rfl

theorem pieces_append_append (h : c ∉ before) (after : Text) :
    pieces (c :: separator) (before ++ (c :: separator ++ after)) =
      before :: pieces (c :: separator) after := by
  rw [pieces_append_of_not_mem h, pieces_append (List.cons_ne_nil _ _)]
  simp

/-- Two parts with a separator between them are found again, if it does not start in the first one
and is not found in the last one. -/
theorem pieces_append_of_pieces {first last : Text} (hfirst : c ∉ first)
    (hlast : pieces (c :: separator) last = [last]) :
    pieces (c :: separator) (first ++ c :: separator ++ last) = [first, last] := by
  rw [List.append_assoc, pieces_append_append hfirst, hlast]

theorem pieces_pair {first last : Text} (hfirst : c ∉ first) (hlast : c ∉ last) :
    pieces (c :: separator) (first ++ c :: separator ++ last) = [first, last] :=
  pieces_append_of_pieces hfirst (pieces_of_not_mem List.mem_cons_self hlast)

/-- A separator does not reach across a character that does not occur in it. -/
theorem not_prefix_append_cons {sep : Text} {d : Char} (hd : d ∉ sep) (h : ¬ sep <+: before)
    (after : Text) : ¬ sep <+: before ++ d :: after := by
  intro hprefix
  have hconcat : before ++ [d] <+: before ++ d :: after := ⟨after, by simp⟩
  rcases List.prefix_or_prefix_of_prefix hprefix hconcat with hsep | hsep
  · rcases List.prefix_concat_iff.mp hsep with rfl | hsep
    · exact hd (by simp)
    · exact h hsep
  · exact hd (hsep.subset (by simp))

/-- **A character that does not occur in the separator keeps two texts apart**: the last piece of
the one and the first piece of the other make one piece, and the others stay as they are. -/
theorem pieces_append_cons_of_concat {d : Char} (hd : d ∉ separator) (hne : separator ≠ [])
    {front : List Text} {last : Text} (h : pieces separator before = front ++ [last])
    (after : Text) : pieces separator (before ++ d :: after) =
      front ++ (pieces separator after).modifyHead (last ++ d :: ·) := by
  induction before using pieces_induction hne generalizing front last with
  | nil =>
    have hnil : ¬ separator <+: [] := by simpa using hne
    obtain ⟨rfl, hlast⟩ := List.append_eq_singleton_iff.mp h.symm |>.resolve_right (by simp)
    obtain rfl : last = [] := by simpa using hlast
    exact pieces_cons (not_prefix_append_cons hd hnil after)
  | found rest ih =>
    rw [pieces_append hne] at h
    cases front with
    | nil => exact absurd (List.cons.inj h).2 (pieces_ne_nil separator rest)
    | cons first front =>
      obtain ⟨rfl, hrest⟩ := List.cons.inj h
      rw [List.append_assoc, pieces_append hne, ih hrest]
      rfl
  | passed e rest hprefix ih =>
    have hlonger := not_prefix_append_cons hd hprefix after
    obtain ⟨first, others, hpieces⟩ := List.exists_cons_of_ne_nil (pieces_ne_nil separator rest)
    rw [pieces_cons hprefix, hpieces, List.modifyHead_cons] at h
    rw [List.cons_append] at hlonger ⊢
    rw [pieces_cons hlonger]
    cases front with
    | nil =>
      obtain ⟨rfl, rfl⟩ := List.cons.inj h
      have hsingle : pieces separator rest = [] ++ [first] := hpieces
      rw [ih hsingle, List.nil_append, List.nil_append, List.modifyHead_modifyHead]
      rfl
    | cons first' front =>
      obtain ⟨rfl, rfl⟩ := List.cons.inj h
      have hmore : pieces separator rest = (first :: front) ++ [last] := hpieces
      rw [ih hmore]
      rfl

/-- A part in which no separator occurs, with such a character behind it, stays at the front of the
first piece. -/
theorem pieces_append_cons {sep : Text} {d : Char} (hd : d ∉ sep) (hsep : sep ≠ [])
    (h : pieces sep before = [before]) (after : Text) :
    pieces sep (before ++ d :: after) = (pieces sep after).modifyHead (before ++ d :: ·) := by
  have hconcat : pieces sep before = [] ++ [before] := h
  exact pieces_append_cons_of_concat hd hsep hconcat after

/-- Parts with the first character of the separator between them are not cut apart, if none of them
starts like the rest of it. -/
theorem pieces_intercalate {d : Char} {ts : List Text} (hne : ts ≠ [])
    (h : ∀ t ∈ ts, c ∉ t ∧ ∃ e rest, t = e :: rest ∧ e ≠ d) :
    pieces (c :: d :: separator) ([c].intercalate ts) = [[c].intercalate ts] := by
  induction ts with
  | nil => exact absurd rfl hne
  | cons t ts ih =>
    have ht := (h t List.mem_cons_self).1
    cases ts with
    | nil => rw [List.intercalate_singleton, pieces_of_not_mem List.mem_cons_self ht]
    | cons t' ts =>
      have hrest := ih (List.cons_ne_nil _ _) fun s hs => h s (List.mem_cons_of_mem _ hs)
      obtain ⟨e, more, rfl, he⟩ := (h t' (List.mem_cons_of_mem _ List.mem_cons_self)).2
      obtain ⟨tail, htail⟩ := exists_intercalate_cons [c] (e :: more) ts
      -- A separator would have to start at the `c` between two parts, but then `e` is wrong.
      have hprefix : ¬ c :: d :: separator <+: c :: e :: (more ++ tail) := by
        intro hprefix
        obtain ⟨-, hprefix⟩ := List.cons_prefix_cons.mp hprefix
        exact he (List.cons_prefix_cons.mp hprefix).1.symm
      rw [List.intercalate_cons_cons, List.append_assoc, List.singleton_append, htail,
        List.cons_append, pieces_append_of_not_mem ht, pieces_cons hprefix, ← List.cons_append,
        ← htail, hrest]
      rfl

end Pieces

/-! ### At blanks -/

/-- What is found between the characters that a text is split at are the other characters. -/
theorem mem_and_eq_false_of_mem_splitOnP {p : Char → Bool} {text piece : Text}
    (h : piece ∈ text.splitOnP p) : ∀ c ∈ piece, c ∈ text ∧ p c = false := by
  induction text generalizing piece with
  | nil =>
    obtain rfl : piece = [] := by simpa using h
    simp
  | cons d text ih =>
    have hlonger : ∀ {c : Char}, c ∈ text ∧ p c = false → c ∈ d :: text ∧ p c = false :=
      fun hc => ⟨List.mem_cons_of_mem _ hc.1, hc.2⟩
    rw [List.splitOnP_cons_eq_if_modifyHead] at h
    split at h
    · rcases List.mem_cons.mp h with rfl | h
      · simp
      · exact fun c hc => hlonger (ih h c hc)
    · next hd =>
      obtain ⟨first, others, hpieces⟩ :=
        List.exists_cons_of_ne_nil (List.splitOnP_ne_nil p text)
      rw [hpieces] at h ih
      rcases List.mem_cons.mp h with rfl | h
      · rw [List.forall_mem_cons]
        exact ⟨⟨List.mem_cons_self, by simpa using hd⟩,
          fun c hc => hlonger (ih List.mem_cons_self c hc)⟩
      · exact fun c hc => hlonger (ih (List.mem_cons_of_mem _ h) c hc)

/-- A word has at least one character, and no blanks. -/
def IsWord (text : Text) : Prop :=
  text ≠ [] ∧ ∀ c ∈ text, isBlank c = false

instance (text : Text) : Decidable (IsWord text) :=
  @instDecidableAnd _ _ inferInstance (List.decidableBAll _ text)

section Trim

variable {text blanks : Text}

theorem trim_blanks_append (h : ∀ c ∈ blanks, isBlank c = true) (text : Text) :
    trim (blanks ++ text) = trim text := by
  rw [trim, trimLeft, List.dropWhile_append_of_pos h]
  rfl

theorem trimRight_append_blanks (h : ∀ c ∈ blanks, isBlank c = true) (text : Text) :
    trimRight (text ++ blanks) = trimRight text := by
  rw [trimRight, List.reverse_append, List.dropWhile_append_of_pos (by simpa using h)]
  rfl

theorem trim_append_blanks (h : ∀ c ∈ blanks, isBlank c = true) (text : Text) :
    trim (text ++ blanks) = trim text := by
  rw [trim, trimLeft, List.dropWhile_append]
  split
  · next hempty =>
    rw [List.isEmpty_iff] at hempty
    have hblanks : blanks.dropWhile isBlank = [] := List.dropWhile_eq_nil_iff.mpr h
    rw [hblanks, trim, trimLeft, hempty]
  · rw [trimRight_append_blanks h]
    rfl

theorem trim_between_blanks {before after : Text} (hbefore : ∀ c ∈ before, isBlank c = true)
    (hafter : ∀ c ∈ after, isBlank c = true) (text : Text) :
    trim (before ++ text ++ after) = trim text := by
  rw [trim_append_blanks hafter, trim_blanks_append hbefore]

/-- A text without a blank at either end is left alone. -/
theorem trim_eq_self (hhead : ∀ c ∈ text.head?, isBlank c = false)
    (hlast : ∀ c ∈ text.getLast?, isBlank c = false) : trim text = text := by
  have hleft : trimLeft text = text := by
    cases text with
    | nil => rfl
    | cons c rest => exact List.dropWhile_cons_of_neg (by simp [hhead c rfl])
  have hright : text.reverse.dropWhile isBlank = text.reverse := by
    cases hreverse : text.reverse with
    | nil => rfl
    | cons c rest =>
      have hc : isBlank c = false := hlast c (by rw [List.getLast?_eq_head?_reverse, hreverse]; rfl)
      exact List.dropWhile_cons_of_neg (by simp [hc])
  rw [trim, hleft, trimRight, hright, List.reverse_reverse]

theorem head?_dropWhile_isBlank (text : Text) :
    ∀ c ∈ (text.dropWhile isBlank).head?, isBlank c = false := by
  intro c hc
  have hnot := List.head?_dropWhile_not isBlank text
  rw [Option.mem_def.mp hc] at hnot
  simpa using hnot

theorem head?_trim (text : Text) : ∀ c ∈ (trim text).head?, isBlank c = false := by
  intro c hc
  -- What is left of the front when blanks are removed at the end is a part of the front.
  have hprefix : trim text <+: trimLeft text := by
    rw [trim, trimRight, ← List.reverse_suffix, List.reverse_reverse]
    exact List.dropWhile_suffix _
  obtain ⟨rest, hrest⟩ := hprefix
  refine head?_dropWhile_isBlank text c ?_
  rw [trimLeft] at hrest
  rw [← hrest]
  cases htrim : trim text with
  | nil => rw [htrim] at hc; exact absurd hc (by simp)
  | cons d more => rw [htrim] at hc; exact hc

theorem getLast?_trim (text : Text) : ∀ c ∈ (trim text).getLast?, isBlank c = false := by
  intro c hc
  rw [trim, trimRight, List.getLast?_reverse] at hc
  exact head?_dropWhile_isBlank _ c hc

theorem trim_trim (text : Text) : trim (trim text) = trim text :=
  trim_eq_self (head?_trim text) (getLast?_trim text)

/-- What trimming takes away are blanks at the two ends. -/
theorem exists_blanks_trim (text : Text) : ∃ before after, (∀ c ∈ before, isBlank c = true) ∧
    (∀ c ∈ after, isBlank c = true) ∧ text = before ++ trim text ++ after := by
  have hblank : ∀ text : Text, ∀ c ∈ text.takeWhile isBlank, isBlank c = true :=
    fun _ _ hc => List.mem_takeWhile_imp hc
  refine ⟨text.takeWhile isBlank, ((trimLeft text).reverse.takeWhile isBlank).reverse,
    hblank text, fun c hc => hblank _ c (List.mem_reverse.mp hc), ?_⟩
  rw [List.append_assoc, trim, trimRight, ← List.reverse_append, List.takeWhile_append_dropWhile,
    List.reverse_reverse, trimLeft, List.takeWhile_append_dropWhile]

theorem trim_isInfix (text : Text) : trim text <:+: text := by
  obtain ⟨before, after, -, -, htext⟩ := exists_blanks_trim text
  exact ⟨before, after, htext.symm⟩

/-- Trimming leaves nothing if there are only blanks. -/
theorem trim_eq_nil_iff : trim text = [] ↔ ∀ c ∈ text, isBlank c = true := by
  rw [trim, trimRight, List.reverse_eq_nil_iff, List.dropWhile_eq_nil_iff]
  constructor
  · intro h
    have hleft : trimLeft text = [] := by
      by_contra hne
      obtain ⟨c, rest, hcons⟩ := List.exists_cons_of_ne_nil hne
      have hhead : isBlank c = false := head?_dropWhile_isBlank text c (by
        rw [← trimLeft, hcons]
        rfl)
      exact absurd (h c (by simp [hcons])) (by simp [hhead])
    exact List.dropWhile_eq_nil_iff.mp hleft
  · intro h c hc
    exact h c ((List.dropWhile_sublist _).subset (List.mem_reverse.mp hc))

theorem words_append_cons {c : Char} (hc : isBlank c = true) (before after : Text) :
    words (before ++ c :: after) = words before ++ words after := by
  rw [words, List.splitOnP_append_cons _ _ hc, List.filter_append]
  rfl

/-- Blanks at the front make no word. -/
theorem words_blanks_append (h : ∀ c ∈ blanks, isBlank c = true) (text : Text) :
    words (blanks ++ text) = words text := by
  induction blanks with
  | nil => rfl
  | cons c blanks ih =>
    obtain ⟨hc, hblanks⟩ := List.forall_mem_cons.mp h
    have hcons : words ([] ++ c :: (blanks ++ text)) = words [] ++ words (blanks ++ text) :=
      words_append_cons hc [] (blanks ++ text)
    exact hcons.trans (ih hblanks)

/-- Blanks between two texts keep their words apart. -/
theorem words_separated_append (h : ∀ c ∈ blanks, isBlank c = true) (hne : blanks ≠ [])
    (before after : Text) : words (before ++ blanks ++ after) = words before ++ words after := by
  obtain ⟨c, blanks, rfl⟩ := List.exists_cons_of_ne_nil hne
  obtain ⟨hc, hblanks⟩ := List.forall_mem_cons.mp h
  rw [List.append_assoc, List.cons_append, words_append_cons hc, words_blanks_append hblanks]

/-- What stands directly in front of a word becomes a part of it. -/
theorem exists_words_eq_cons {c : Char} (hc : isBlank c = false) (rest : Text) :
    ∃ more others, words (c :: rest) = (c :: more) :: others ∧
      ∀ front : Text, (∀ d ∈ front, isBlank d = false) →
        words (front ++ c :: rest) = (front ++ c :: more) :: others := by
  have hsplit : ∀ {text front : Text}, (∀ d ∈ front, isBlank d = false) →
      (front ++ text).splitOnP isBlank = (text.splitOnP isBlank).modifyHead (front ++ ·) := by
    intro text front hfront
    induction front with
    | nil => rw [List.nil_append]; cases text.splitOnP isBlank <;> rfl
    | cons d front ih =>
      obtain ⟨hd, hfront⟩ := List.forall_mem_cons.mp hfront
      rw [List.cons_append, List.splitOnP_cons_eq_if_modifyHead, if_neg (by simp [hd]), ih hfront,
        List.modifyHead_modifyHead]
      rfl
  obtain ⟨more, others, hpieces⟩ :=
    List.exists_cons_of_ne_nil (List.splitOnP_ne_nil isBlank rest)
  have hwords : ∀ front : Text, (∀ d ∈ front, isBlank d = false) →
      words (front ++ c :: rest) = (front ++ c :: more) :: others.filter (!·.isEmpty) := by
    intro front hfront
    have hcons : front ++ c :: rest = (front ++ [c]) ++ rest := List.append_cons front c rest
    rw [words, hcons, hsplit (by simpa [or_imp, forall_and] using ⟨hfront, hc⟩), hpieces,
      List.modifyHead_cons, List.filter_cons_of_pos (by simp), List.append_assoc,
      List.singleton_append]
  exact ⟨more, _, hwords [] (by simp), hwords⟩

theorem words_of_isWord (h : IsWord text) : words text = [text] := by
  rw [words, List.splitOnP_eq_singleton h.2]
  exact List.filter_cons_of_pos (by simpa using h.1)

theorem trim_of_isWord (h : IsWord text) : trim text = text :=
  trim_eq_self (fun c hc => h.2 c (List.mem_of_mem_head? hc))
    fun c hc => h.2 c (List.mem_of_mem_getLast? hc)

/-- A text between a word and something without blanks at its end is not trimmed. -/
theorem trim_isWord_append {first last : Text} (hfirst : IsWord first) (hlast : trim last = last)
    (hne : last ≠ []) (middle : Text) :
    trim (first ++ middle ++ last) = first ++ middle ++ last := by
  refine trim_eq_self (fun c hc => ?_) fun c hc => ?_
  · obtain ⟨d, rest, rfl⟩ := List.exists_cons_of_ne_nil hfirst.1
    obtain rfl : d = c := by simpa using hc
    exact hfirst.2 d List.mem_cons_self
  · rw [List.getLast?_append_of_ne_nil _ hne, ← hlast] at hc
    exact getLast?_trim last c hc

theorem space_notMem_of_isWord (h : IsWord text) : ' ' ∉ text := fun hmem =>
  absurd (h.2 ' ' hmem) (by decide)

/-- What is found between blanks are words. -/
theorem isWord_of_mem_words {word : Text} (h : word ∈ words text) : IsWord word := by
  obtain ⟨hpiece, hne⟩ := List.mem_filter.mp h
  exact ⟨by simpa using hne, fun c hc => (mem_and_eq_false_of_mem_splitOnP hpiece c hc).2⟩

theorem mem_of_mem_words {word : Text} (h : word ∈ words text) {c : Char} (hc : c ∈ word) :
    c ∈ text :=
  (mem_and_eq_false_of_mem_splitOnP (List.mem_of_mem_filter h) c hc).1

theorem words_of_blank (h : ∀ c ∈ text, isBlank c = true) : words text = [] := by
  refine List.eq_nil_iff_forall_not_mem.mpr fun word hword => ?_
  obtain ⟨hne, hblank⟩ := isWord_of_mem_words hword
  obtain ⟨c, rest, rfl⟩ := List.exists_cons_of_ne_nil hne
  have hc := h c (mem_of_mem_words hword List.mem_cons_self)
  exact absurd hc (by simp [hblank c List.mem_cons_self])

/-- Blanks around a text make no words. -/
theorem words_trim (text : Text) : words (trim text) = words text := by
  obtain ⟨before, after, hbefore, hafter, htext⟩ := exists_blanks_trim text
  conv_rhs => rw [htext, List.append_assoc, words_blanks_append hbefore]
  cases after with
  | nil => rw [List.append_nil]
  | cons c after =>
    obtain ⟨hc, hafter⟩ := List.forall_mem_cons.mp hafter
    rw [words_append_cons hc, words_of_blank hafter, List.append_nil]

/-- **Words with single blanks between them are found again.** -/
theorem words_intercalate {ws : List Text} (h : ∀ w ∈ ws, IsWord w) :
    words ([' '].intercalate ws) = ws := by
  induction ws with
  | nil => rfl
  | cons w ws ih =>
    have hw := h w List.mem_cons_self
    cases ws with
    | nil => rw [List.intercalate_singleton, words_of_isWord hw]
    | cons w' ws =>
      rw [List.intercalate_cons_cons, List.append_assoc, List.singleton_append,
        words_append_cons (by decide), words_of_isWord hw,
        ih fun v hv => h v (List.mem_cons_of_mem _ hv), List.singleton_append]

/-- Words with single blanks between them have no blank at either end. -/
theorem trim_intercalate {ws : List Text} (h : ∀ w ∈ ws, IsWord w) :
    trim ([' '].intercalate ws) = [' '].intercalate ws := by
  refine trim_eq_self (fun c hc => ?_) fun c hc => ?_
  · cases ws with
    | nil => exact absurd hc (by simp)
    | cons w ws =>
      obtain ⟨hne, hw⟩ := h w List.mem_cons_self
      obtain ⟨rest, hrest⟩ := exists_intercalate_cons [' '] w ws
      rw [hrest, List.head?_append_of_ne_nil _ hne] at hc
      exact hw c (List.mem_of_mem_head? hc)
  · rcases List.eq_nil_or_concat ws with rfl | ⟨ws, w, rfl⟩
    · exact absurd hc (by simp)
    · obtain ⟨hne, hw⟩ := h w (by simp)
      obtain ⟨rest, hrest⟩ := exists_intercalate_concat [' '] ws w
      rw [List.concat_eq_append, hrest, List.getLast?_append_of_ne_nil _ hne] at hc
      exact hw c (List.mem_of_mem_getLast? hc)

/-- Words with single blanks between them, and nothing else. -/
def IsSpaced (text : Text) : Prop :=
  [' '].intercalate (words text) = text

theorem isSpaced_intercalate {ws : List Text} (h : ∀ w ∈ ws, IsWord w) :
    IsSpaced ([' '].intercalate ws) := by
  rw [IsSpaced, words_intercalate h]

theorem isSpaced_of_isWord (h : IsWord text) : IsSpaced text := by
  rw [IsSpaced, words_of_isWord h, List.intercalate_singleton]

theorem IsSpaced.trim_eq (h : IsSpaced text) : trim text = text := by
  have htrim := trim_intercalate fun w (hw : w ∈ words text) => isWord_of_mem_words hw
  rwa [show [' '].intercalate (words text) = text from h] at htrim

/-- The only blank is the one between two words. -/
theorem IsSpaced.eq_of_isBlank (h : IsSpaced text) {c : Char} (hc : c ∈ text)
    (hblank : isBlank c = true) : c = ' ' := by
  rw [IsSpaced] at h
  rw [← h] at hc
  rcases mem_intercalate hc with hc | ⟨w, hw, hc⟩
  · exact hc
  · exact absurd hblank (by simp [(isWord_of_mem_words hw).2 c hc])

/-- Two words with ` - ` between them are three words. -/
theorem isSpaced_hyphen {first last : Text} (hfirst : IsWord first) (hlast : IsWord last) :
    IsSpaced (first ++ " - ".toList ++ last) := by
  have hwords : first ++ " - ".toList ++ last = [' '].intercalate [first, ['-'], last] := by
    simp [List.intercalate_cons_cons]
  rw [hwords]
  refine isSpaced_intercalate ?_
  simp only [List.forall_mem_cons]
  exact ⟨hfirst, by decide, hlast, by simp⟩

end Trim

/-! ### Parts with blanks around the separator -/

section Joined

variable {separator : Text} {d : Char} (hblank : isBlank d = true) (hd : d ∉ separator)
  (hne : separator ≠ [])
include hblank hd hne

theorem map_trim_pieces_append (before after : Text) :
    (pieces separator (before ++ d :: separator ++ [d] ++ after)).map trim =
      (pieces separator before ++ pieces separator after).map trim := by
  obtain ⟨front, last, hbefore⟩ : ∃ front last, pieces separator before = front ++ [last] :=
    ⟨_, _, (List.dropLast_append_getLast (pieces_ne_nil separator before)).symm⟩
  obtain ⟨first, others, hafter⟩ := List.exists_cons_of_ne_nil (pieces_ne_nil separator after)
  have hnil : pieces separator [] = [] ++ [[]] := rfl
  have hjoined : before ++ d :: separator ++ [d] ++ after =
      before ++ d :: (separator ++ ([] ++ d :: after)) := by simp
  -- The blanks end up at the last piece of the one text and at the first piece of the other.
  rw [hjoined, pieces_append_cons_of_concat hd hne hbefore, pieces_append hne,
    pieces_append_cons_of_concat hd hne hnil, hbefore, hafter]
  have hlast : trim (last ++ [d]) = trim last := trim_append_blanks (by simpa using hblank) last
  have hfirst : trim ([d] ++ first) = trim first :=
    trim_blanks_append (by simpa using hblank) first
  rw [List.singleton_append] at hfirst
  simp [hlast, hfirst]

/-- **Texts are cut one by one**, up to blanks, when there is a separator with blanks on both sides
between them. -/
theorem map_trim_pieces_intercalate {texts : List Text} (htexts : texts ≠ []) :
    (pieces separator ((d :: separator ++ [d]).intercalate texts)).map trim =
      (texts.flatMap (pieces separator)).map trim := by
  induction texts with
  | nil => exact absurd rfl htexts
  | cons text texts ih =>
    cases texts with
    | nil => rw [List.intercalate_singleton, List.flatMap_singleton]
    | cons text' texts =>
      rw [List.intercalate_cons_cons, ← List.append_assoc,
        map_trim_pieces_append hblank hd hne, List.map_append, ih (List.cons_ne_nil _ _),
        ← List.map_append]
      rfl

end Joined

end Text

end JuliaReleases
