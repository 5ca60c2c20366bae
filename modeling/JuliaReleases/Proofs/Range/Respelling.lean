import JuliaReleases.Proofs.CompatRange.Unbounded
import JuliaReleases.Proofs.Range.BuildMetadata
import JuliaReleases.Proofs.Range.Caret
import JuliaReleases.Proofs.Range.Partition

/-!
# Spellings of a comparator

A comparator is an operator, or none, and a version behind it, and there are several ways to write
the same one. The range is the same, bound by bound, whichever is chosen, because all of them are
read as the same partial version behind the same operator
(`JuliaReleases.Range.ofText_front_append`). So every spelling comes down to two questions: is the
text still a single word, and is its version read as before?

| spelling | the version |
|---|---|
| a letter `v` in front of the version | `JuliaReleases.PartialVersion.read_front` |
| build metadata behind it | `JuliaReleases.PartialVersion.read_append_build` |
| further components, behind a wildcard or starting with one | `JuliaReleases.PartialVersion.Written.append_components` |

Blanks behind the operator are another matter, since they make two words of the comparator; there
the operator takes the version behind it (`JuliaReleases.Range.exists_read_operator_append`).
-/

namespace JuliaReleases

/-! ### Further components -/

namespace PartialVersion

variable {text : Text} {p : PartialVersion} {texts more : List Text}
  {values others : List (Option Nat)}

/-- The components of a version as they are written, as far as it has neither a prerelease nor
build metadata. -/
def componentTexts (text : Text) : List Text :=
  (Tag.stripPrefix text).splitOn '.'

/-- What stands behind a wildcard does not count. -/
theorem ofComponents_append_none (values others : List (Option Nat)) :
    ofComponents (values ++ none :: others) = ofComponents values := by
  rcases values with _ | ⟨_ | a, _ | ⟨_ | b, _ | ⟨_ | c, values⟩⟩⟩ <;> rfl

/-- Components that start with a wildcard, or stand behind one, do not count. -/
theorem ofComponents_append (h : none ∈ values ++ others.take 1) :
    ofComponents (values ++ others) = ofComponents values := by
  rcases List.mem_append.mp h with h | h
  · obtain ⟨front, back, rfl⟩ := List.append_of_mem h
    rw [List.append_assoc, List.cons_append, ofComponents_append_none, ofComponents_append_none]
  · obtain ⟨back, rfl⟩ : ∃ back, others = none :: back := by
      cases others with
      | nil => exact absurd h (by simp)
      | cons first back => exact ⟨back, by rw [List.mem_singleton.mp h]⟩
    exact ofComponents_append_none values back

theorem none_mem_of_mem_wildcards (h : List.Forall₂ Component texts values) {component : Text}
    (hmem : component ∈ texts) (hwildcard : component ∈ wildcards) : none ∈ values := by
  obtain ⟨value, hvalue, hread⟩ :=
    exists_mem_of_mem_read (mapM_eq_ok_iff.mp (mapM_readComponent_eq_ok_iff.mpr h)) hmem
  rw [readComponent_eq_ok_none_iff.mpr hwildcard, Except.ok.injEq] at hread
  exact hread ▸ hvalue

/-- No component starts with a letter `v`. -/
theorem letter_notMem_dotted (h : List.Forall₂ Component texts values) : 'v' ∉ dotted texts :=
  fun hmem => absurd (char_of_mem_dotted h hmem) (by decide)

/-- The components of a plain version are found again. -/
theorem componentTexts_append_dotted {front : Text} (hfront : front ∈ fronts) (hne : texts ≠ [])
    (h : List.Forall₂ Component texts values) : componentTexts (front ++ dotted texts) = texts := by
  have hletter : 'v' ∉ (dotted texts).head? := fun hmem =>
    letter_notMem_dotted h (List.mem_of_mem_head? hmem)
  rw [componentTexts, stripPrefix_front hfront hletter, splitOn_dotted_components h hne]

/-- Two points make three parts, or more. -/
theorem three_le_length_splitOn (first second rest : Text) :
    3 ≤ ((first ++ '.' :: (second ++ '.' :: rest)).splitOn '.').length := by
  have hpos : ∀ part : Text, 1 ≤ (part.splitOn '.').length := fun part =>
    List.length_pos_iff.mpr (List.splitOn_ne_nil '.' part)
  have hfirst := hpos first
  have hsecond := hpos second
  have hrest := hpos rest
  rw [List.splitOn_append_cons_self, List.splitOn_append_cons_self, List.length_append,
    List.length_append]
  omega

/-- **Further components do not count** if they start with a wildcard or stand behind one. -/
theorem Written.append_components (h : Written text p) (hne : more ≠ [])
    (hmore : List.Forall₂ Component more others)
    (hlength : (componentTexts text).length + more.length ≤ 3)
    (hwildcard : ∃ component ∈ componentTexts text ++ more.take 1, component ∈ wildcards) :
    Written (text ++ '.' :: dotted more) p := by
  cases h with
  | @components front texts values hfront hone hthree hvalues =>
    have htexts : texts ≠ [] := List.length_pos_iff.mp hone
    rw [componentTexts_append_dotted hfront htexts hvalues] at hlength hwildcard
    obtain ⟨component, hmem, hcomponent⟩ := hwildcard
    have hnone : none ∈ values ++ others.take 1 :=
      none_mem_of_mem_wildcards (List.rel_append hvalues (List.forall₂_take 1 hmore)) hmem
        hcomponent
    have htext : front ++ dotted texts ++ '.' :: dotted more = front ++ dotted (texts ++ more) := by
      simp [dotted, Text.intercalate_append _ htexts hne]
    rw [htext, ← ofComponents_append hnone]
    exact .components hfront (by simp; omega) (by simpa using hlength)
      (List.rel_append hvalues hmore)
  | @prerelease front a b c pre hfront ha hb hc =>
    -- A version with a prerelease has three components already.
    have hnumbers : List.Forall₂ Component
        [Decimal.write a, Decimal.write b, Decimal.write c] [some a, some b, some c] :=
      .cons (.number ha) (.cons (.number hb) (.cons (.number hc) .nil))
    have hletter : 'v' ∉ (dotted [Decimal.write a, Decimal.write b, Decimal.write c] ++
        '-' :: dotted (pre.map (·.text))).head? := by
      rw [List.head?_append_of_ne_nil _ (dotted_ne_nil hnumbers (List.cons_ne_nil _ _))]
      exact fun hmem => letter_notMem_dotted hnumbers (List.mem_of_mem_head? hmem)
    have hthree := three_le_length_splitOn (Decimal.write a) (Decimal.write b)
      (Decimal.write c ++ '-' :: dotted (pre.map (·.text)))
    have hmore : 0 < more.length := List.length_pos_iff.mpr hne
    rw [componentTexts, stripPrefix_front hfront hletter] at hlength
    simp [dotted, List.intercalate_cons_cons] at hlength hthree
    omega

theorem Written.bar_notMem (h : Written text p) : '|' ∉ text := fun hmem => by
  rcases h.char hmem with hc | hc <;> exact absurd hc (by decide)

end PartialVersion

/-! ### Comparators -/

/-- What stands in front of the version of a comparator: an operator, or nothing. -/
def Operator.front (op : Option Operator) : Text :=
  op.elim [] write

namespace Range

variable {policy : PrereleasePolicy} {text build : Text} {p : PartialVersion}
  {op : Option Operator}

/-- **The range of a comparator** is given by its operator and what its version is read as. -/
theorem ofText_front_append (htext : IsToken text) (h : PartialVersion.read text = .ok p) :
    ofText policy (Operator.front op ++ text) =
      .ok (ofTerms policy [⟨.operand (op.getD .eq), p⟩]) := by
  cases op with
  | none => exact mapError_eq_ok_iff.mpr (htext.read_bare h)
  | some op => exact mapError_eq_ok_iff.mpr (htext.read_operator h op)

section Written

variable (h : p.Written text)
include h

theorem isToken_of_written : IsToken text :=
  isToken_of_read (PartialVersion.read_of_written h) h.isWord.2 h.bar_notMem

theorem ofText_front_append_of_written : ofText policy (Operator.front op ++ text) =
    .ok (ofTerms policy [⟨.operand (op.getD .eq), p⟩]) :=
  ofText_front_append (isToken_of_written h) (PartialVersion.read_of_written h)

/-- Build metadata that keeps the word together changes nothing. -/
theorem ofText_front_append_build (hbuild : Text.IsWord build) (hbar : '|' ∉ build) :
    ofText policy (Operator.front op ++ text ++ '+' :: build) =
      .ok (ofTerms policy [⟨.operand (op.getD .eq), p⟩]) := by
  have hread : PartialVersion.read (text ++ '+' :: build) = .ok p :=
    PartialVersion.read_eq_ok_iff.mpr (.build h hbuild.1)
  have htoken : IsToken (text ++ '+' :: build) := by
    refine isToken_of_read hread (fun c hc => ?_) ?_
    · rcases List.mem_append.mp hc with hc | hc
      · exact h.isWord.2 c hc
      · rcases List.mem_cons.mp hc with rfl | hc
        · decide
        · exact hbuild.2 c hc
    · simp [h.bar_notMem, hbar]
  rw [List.append_assoc]
  exact ofText_front_append htoken hread

/-- Blanks behind the operator change nothing. -/
theorem ofText_write_append_blanks {blanks : Text} (hblanks : ∀ c ∈ blanks, isBlank c = true)
    (op : Operator) : ofText policy (op.write ++ blanks ++ text) =
      .ok (ofTerms policy [⟨.operand op, p⟩]) := by
  have hword := h.isWord
  have hread := PartialVersion.read_of_written h
  obtain ⟨c, rest, htext, hc⟩ := PartialVersion.exists_eq_cons_of_read hread
  have hstart : ∀ d ∈ text.head?, d ∉ Operator.starts := by
    rintro d hd
    obtain rfl : c = d := by simpa [htext] using hd
    exact hc
  have hbare : Range.read policy text = .ok _ := (isToken_of_written h).read_bare hread
  have hbar : ¬ "||".toList <:+: text := fun hmark => h.bar_notMem (hmark.subset (by decide))
  obtain ⟨word, words, q, others, hwords, hq, -, hothers, hop⟩ :=
    exists_read_operator_append (Text.space_notMem_of_isWord hword) (Text.trim_of_isWord hword)
      hword.1 hstart hbar hbare
  rw [Text.words_of_isWord hword, List.cons.injEq] at hwords
  obtain ⟨rfl, rfl⟩ := hwords
  obtain rfl := hothers rfl
  obtain rfl : p = q := Except.ok.inj (hread.symm.trans hq)
  have hresult := hop op blanks [] hblanks (by simp)
  rw [List.append_nil] at hresult
  exact mapError_eq_ok_iff.mpr hresult

end Written

end Range

open Range PartialVersion in
/-- **A comparator may be spelled in several ways.** Let a version without build metadata stand
behind an operator, or behind none. The text is a range, and it is the same range

* with a letter `v` in front of the version, unless there is one;
* with blanks between the operator and the version;
* with anything behind the version that a `+` separates from it and that keeps the word together;
* with `=` for no operator;
* with further components behind the version, up to three in all, if one of those that are written
  is a wildcard or the first further one is;
* with `*` for the version, if its first component is a wildcard. -/
theorem comparator_spellings_agree (policy : PrereleasePolicy) (op : Option Operator) {text : Text}
    {p : PartialVersion} (hplus : '+' ∉ text) (h : PartialVersion.read text = .ok p) :
    ∃ r, Range.ofText policy (Operator.front op ++ text) = .ok r ∧
      ('v' ∉ text.head? → Range.ofText policy (Operator.front op ++ 'v' :: text) = .ok r) ∧
      (∀ written ∈ op, ∀ blanks, (∀ c ∈ blanks, isBlank c = true) →
        Range.ofText policy (written.write ++ blanks ++ text) = .ok r) ∧
      (∀ build, Text.IsWord build → '|' ∉ build →
        Range.ofText policy (Operator.front op ++ text ++ '+' :: build) = .ok r) ∧
      (op = none → Range.ofText policy (Operator.eq.write ++ text) = .ok r) ∧
      (∀ more, more ≠ [] → (∀ component ∈ more, ∃ value, readComponent component = .ok value) →
        (componentTexts text).length + more.length ≤ 3 →
        (∃ component ∈ componentTexts text ++ more.take 1, component ∈ wildcards) →
        Range.ofText policy (Operator.front op ++ text ++ '.' :: dotted more) = .ok r) ∧
      (leading text ∈ wildcards → Range.ofText policy (Operator.front op ++ ['*']) = .ok r) := by
  have hwritten := written_of_read hplus h
  refine ⟨ofTerms policy [⟨.operand (op.getD .eq), p⟩], ofText_front_append_of_written hwritten,
    fun hletter => ?_, ?_, fun build => ofText_front_append_build hwritten, ?_, ?_,
    fun hleading => ?_⟩
  · have hread : PartialVersion.read ('v' :: text) = .ok p :=
      (read_front (by decide : ['v'] ∈ fronts) hletter).trans h
    have hword : ∀ c ∈ 'v' :: text, isBlank c = false :=
      List.forall_mem_cons.mpr ⟨by decide, hwritten.isWord.2⟩
    exact ofText_front_append (isToken_of_read hread hword (by simp [hwritten.bar_notMem])) hread
  · rintro written hop blanks hblanks
    obtain rfl : op = some written := hop
    exact ofText_write_append_blanks hwritten hblanks written
  · rintro rfl
    have hequals : Range.ofText policy (Operator.front (some .eq) ++ text) = _ :=
      ofText_front_append_of_written hwritten
    exact hequals
  · intro more hne hmore hlength hwildcard
    obtain ⟨others, hothers⟩ := exists_results hmore
    rw [← mapM_eq_ok_iff, mapM_readComponent_eq_ok_iff] at hothers
    rw [List.append_assoc]
    exact ofText_front_append_of_written
      (hwritten.append_components hne hothers hlength hwildcard)
  · obtain rfl : p = wildcard := (eq_wildcard_iff_of_read h).mpr hleading
    exact ofText_front_append ⟨by decide, rfl⟩ rfl

open Range in
/-- The version `1.x` behind `>`, with a `v`, a space and a tab, build metadata, or a component
behind the wildcard; and `x.2` without an operator, with `=`, or as `*`. -/
theorem comparator_spellings_agree_wildcard :
    (∃ r, Range.ofText .included ">1.x".toList = .ok r ∧
      Range.ofText .included ">v1.x".toList = .ok r ∧
      Range.ofText .included "> \t1.x".toList = .ok r ∧
      Range.ofText .included ">1.x+-.+".toList = .ok r ∧
      Range.ofText .included ">1.x.3".toList = .ok r) ∧
    ∃ r, Range.ofText .named "x.2".toList = .ok r ∧ Range.ofText .named "=x.2".toList = .ok r ∧
      Range.ofText .named "*".toList = .ok r := by
  constructor
  · obtain ⟨r, hr, hletter, hblanks, hbuild, -, hmore, -⟩ :=
      @comparator_spellings_agree .included (some .gt) "1.x".toList _ (by decide) rfl
    exact ⟨r, hr, hletter (by decide), hblanks .gt rfl " \t".toList (by simpa using ⟨rfl, rfl⟩),
      hbuild "-.+".toList (by decide) (by decide),
      hmore ["3".toList] (by decide) (by simpa using ⟨some 3, rfl⟩) (by decide) (by decide)⟩
  · obtain ⟨r, hr, -, -, -, hequals, -, hwildcard⟩ :=
      @comparator_spellings_agree .named none "x.2".toList _ (by decide) rfl
    exact ⟨r, hr, hequals rfl, hwildcard (by decide)⟩

end JuliaReleases
