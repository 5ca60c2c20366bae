import JuliaReleases.Proofs.Range.Grammar
import JuliaReleases.Proofs.Range.Meaning

/-!
# Build metadata in ranges

In a range, what follows the first `+` of a version is build metadata. It must not be empty, and
that is all that is ever asked of it: the grammar of `JuliaReleases.PartialVersion.Written` ends in
front of the `+`, and `JuliaReleases.PartialVersion.read_eq_ok_iff` says that a plain version with
any other text behind a `+` is read as the plain version is.

For a word this does no harm, since a word ends at a blank. The upper end of a hyphen range does
not: it goes on to the end of the arm, so a `+` makes everything behind it unread, comparators
included (`JuliaReleases.Arm.readTerms_append_build`). If build metadata is what it should be,
identifiers with points between them, there is no blank in it, and nothing is left over
(`JuliaReleases.Arm.words_of_ends`).
-/

namespace JuliaReleases

variable {text : Text}

theorem Tag.stripPrefix_append_cons {c : Char} (hc : c ≠ 'v') (before after : Text) :
    stripPrefix (before ++ c :: after) = stripPrefix before ++ c :: after := by
  cases before with
  | nil => exact stripPrefix_cons hc after
  | cons d before =>
    by_cases hd : d = 'v'
    · subst hd
      rfl
    · rw [stripPrefix_cons hd, List.cons_append, stripPrefix_cons hd]

theorem Tag.stripPrefix_suffix (tag : Text) : stripPrefix tag <:+ tag := by
  unfold stripPrefix
  split
  · exact List.suffix_cons _ _
  · exact List.suffix_rfl

/-! ### Versions with build metadata -/

namespace PartialVersion

variable {core build : Text} {p : PartialVersion}

/-- **What stands behind the first `+` is not looked at**, unless it is nothing. -/
theorem read_append_build (hplus : '+' ∉ core) :
    read (core ++ '+' :: build) = .ok p ↔ build ≠ [] ∧ read core = .ok p := by
  have hstrip : Tag.stripPrefix (core ++ '+' :: build) = Tag.stripPrefix core ++ '+' :: build :=
    Tag.stripPrefix_append_cons (by decide) core build
  have hplus' : '+' ∉ Tag.stripPrefix core := fun hmem =>
    hplus ((Tag.stripPrefix_suffix core).subset hmem)
  by_cases hnil : Tag.stripPrefix core = []
  · -- Nothing but a letter stands in front of the mark.
    refine iff_of_false (fun h => ?_) fun ⟨_, h⟩ => absurd h (by simp [read, hnil])
    obtain ⟨version, components, hversion, -, hcomponents, -⟩ := exists_components_of_read h
    rw [hstrip, hnil, Text.cut_append_cons (by simp)] at hversion
    subst hversion
    exact absurd hcomponents (by simp [Text.cut, readComponent, Decimal.isNumeral])
  · rw [read, read, hstrip]
    simp only [Text.cut_append_cons hplus', Text.cut_of_not_mem hplus', List.append_eq_nil_iff, hnil, false_and, if_false, reduceCtorEq, Option.some.injEq]
    by_cases hbuild : build = [] <;> simp [hbuild]

/-- A plain version consists of the characters of identifiers, points and asterisks. -/
theorem Written.char (h : p.Written text) {c : Char} (hc : c ∈ text) :
    isIdentifierChar c = true ∨ c ∈ ['.', '*'] := by
  have hfront : ∀ {front}, front ∈ fronts → c ∈ front → isIdentifierChar c = true := by
    intro front hfront hc
    simp only [fronts, List.mem_cons, List.not_mem_nil, or_false] at hfront
    rcases hfront with rfl | rfl
    · exact absurd hc (by simp)
    · obtain rfl := List.mem_singleton.mp hc
      decide
  cases h with
  | components hmem _ _ hvalues =>
    rcases List.mem_append.mp hc with hc | hc
    · exact .inl (hfront hmem hc)
    · rcases char_of_mem_dotted hvalues hc with hc | hc
      · exact .inl (isIdentifierChar_of_isDigit hc)
      · simp only [List.mem_cons, List.not_mem_nil, or_false] at hc
        rcases hc with rfl | rfl | rfl | rfl <;> decide
  | @prerelease _ k m n _ hmem _ _ _ _ =>
    simp only [List.mem_append, List.mem_cons] at hc
    rcases hc with hc | hc | rfl | hc
    · exact .inl (hfront hmem hc)
    · exact (isDigit_of_mem_dotted_write (l := [k, m, n]) hc).imp isIdentifierChar_of_isDigit
        fun hc => by simp [hc]
    · exact .inl (by decide)
    · exact (isIdentifierChar_of_mem_dotted hc).imp_right fun hc => by simp [hc]

theorem Written.plus_notMem (h : p.Written text) : '+' ∉ text := fun hmem => by
  rcases h.char hmem with hc | hc <;> exact absurd hc (by decide)

theorem Written.isWord (h : p.Written text) : Text.IsWord text := by
  obtain ⟨c, rest, htext, -⟩ := exists_eq_cons_of_read (read_of_written h)
  refine ⟨htext ▸ List.cons_ne_nil c rest, fun c hc => ?_⟩
  rcases h.char hc with hc | hc
  · exact isBlank_eq_false_of_isIdentifierChar hc
  · simp only [List.mem_cons, List.not_mem_nil, or_false] at hc
    rcases hc with rfl | rfl <;> decide

/-- **A version as it is written**, with or without build metadata. -/
inductive Spelled : Text → PartialVersion → Prop
  /-- A plain version. -/
  | plain {core : Text} {p : PartialVersion} : p.Written core → Spelled core p
  /-- A plain version with something behind a `+`. -/
  | build {core build : Text} {p : PartialVersion} : p.Written core → build ≠ [] →
      Spelled (core ++ '+' :: build) p

/-- **What is read as a version is written as one**, and the other way round. -/
theorem read_eq_ok_iff : read text = .ok p ↔ p.Spelled text := by
  constructor
  · intro h
    rcases hcut : Text.cut '+' text with ⟨core, _ | build⟩
    · obtain ⟨rfl, hplus⟩ := Text.eq_of_cut_eq_none hcut
      exact .plain (written_of_read hplus h)
    · obtain ⟨rfl, hplus⟩ := Text.eq_of_cut_eq_some hcut
      obtain ⟨hbuild, hcore⟩ := (read_append_build hplus).mp h
      exact .build (written_of_read hplus hcore) hbuild
  · rintro (hcore | ⟨hcore, hbuild⟩)
    · exact read_of_written hcore
    · exact (read_append_build hcore.plus_notMem).mpr ⟨hbuild, read_of_written hcore⟩

end PartialVersion

/-- Build metadata has no blanks. -/
theorem isBlank_eq_false_of_readBuild? {identifiers : List BuildIdentifier}
    (h : readBuild? text = some identifiers) : ∀ c ∈ text, isBlank c = false := by
  obtain ⟨-, rfl⟩ := dotted_of_readBuild? h
  intro c hc
  rcases Text.mem_intercalate hc with rfl | ⟨t, ht, hc⟩
  · decide
  · obtain ⟨i, -, rfl⟩ := List.mem_map.mp ht
    exact isBlank_eq_false_of_isIdentifierChar (BuildIdentifier.isIdentifierChar_of_mem hc)

/-- Whether what stands behind the first `+`, if there is one, is build metadata indeed:
identifiers with points between them. -/
def PartialVersion.HasProperBuild (version : Text) : Prop :=
  ∀ build ∈ (Text.cut '+' version).2, ∃ identifiers, readBuild? build = some identifiers

theorem PartialVersion.Spelled.isWord {p : PartialVersion} (h : p.Spelled text)
    (hbuild : HasProperBuild text) : Text.IsWord text := by
  cases h with
  | plain hcore => exact hcore.isWord
  | @build core build _ hcore hne =>
    obtain ⟨identifiers, hidentifiers⟩ := hbuild build (by
      rw [Text.cut_append_cons hcore.plus_notMem]
      rfl)
    refine ⟨by simp, fun c hc => ?_⟩
    rcases List.mem_append.mp hc with hc | hc
    · exact hcore.isWord.2 c hc
    · rcases List.mem_cons.mp hc with rfl | hc
      · decide
      · exact isBlank_eq_false_of_readBuild? hidentifiers c hc

/-! ### Arms with build metadata -/

theorem Operator.operand_suffix (word : Text) : operand word <:+ word := by
  rcases hsplit : split word with ⟨_ | op, version⟩
  · exact ⟨[], operand_of_split_eq_none (congrArg Prod.fst hsplit)⟩
  · rw [operand, hsplit, eq_append_of_split hsplit]
    exact List.suffix_append _ _

namespace Arm

variable {piece first last version : Text} {terms : List Term}

section Read

variable (h : readTerms piece = .ok terms) (hversion : version ∈ versionTexts piece)
include h hversion

theorem spelled_of_mem_versionTexts : ∃ p, PartialVersion.Spelled version p := by
  obtain ⟨p, -, hp⟩ := exists_mem_of_mem_read (map_read_versionTexts h) hversion
  exact ⟨p, PartialVersion.read_eq_ok_iff.mp hp⟩

/-- Only a hyphen range can have a version with blanks in it. -/
theorem isWord_of_mem_versionTexts (hhyphen : ¬ " - ".toList <:+: Text.trim piece) :
    Text.IsWord version := by
  obtain ⟨p, -, hp⟩ := exists_mem_of_mem_read (map_read_versionTexts h) hversion
  obtain ⟨c, rest, hcons, -⟩ := PartialVersion.exists_eq_cons_of_read hp
  rw [versionTexts, (Text.pieces_eq_singleton_iff (by decide)).mpr hhyphen] at hversion
  obtain ⟨word, hword, rfl⟩ := List.mem_map.mp hversion
  have hblank := (Text.isWord_of_mem_words (List.mem_of_mem_filter hword)).2
  exact ⟨hcons ▸ List.cons_ne_nil c rest,
    fun d hd => hblank d ((Operator.operand_suffix word).subset hd)⟩

end Read

section Ends

variable (hends : Text.pieces " - ".toList (Text.trim piece) = [first, last])
include hends

theorem versionTexts_of_ends : versionTexts piece = [Text.trim first, Text.trim last] := by
  rw [versionTexts, hends]
  rfl

/-- If its ends have no blanks, a hyphen range consists of three words. -/
theorem words_of_ends (hfirst : Text.IsWord (Text.trim first))
    (hlast : Text.IsWord (Text.trim last)) :
    Text.words piece = [Text.trim first, ['-'], Text.trim last] := by
  have htext : Text.trim piece = first ++ ' ' :: (['-'] ++ ' ' :: last) := by
    have hjoined := Text.intercalate_pieces (by decide : " - ".toList ≠ []) (Text.trim piece)
    rw [hends] at hjoined
    simpa [List.intercalate_cons_cons] using hjoined.symm
  have hhyphen : Text.words ['-'] = [['-']] := Text.words_of_isWord (by decide)
  rw [← Text.words_trim, htext, Text.words_append_cons rfl, Text.words_append_cons rfl, hhyphen,
    ← Text.words_trim first, ← Text.words_trim last, Text.words_of_isWord hfirst,
    Text.words_of_isWord hlast]
  rfl

end Ends

section Swallowed

variable (hfirst : Text.IsWord first) (hlast : Text.IsWord last) {rest : Text}
  (hrest : Text.trim rest ≠ []) (hhyphen : ¬ " - ".toList <:+: rest)
include hfirst hlast hrest hhyphen

/-- What stands behind the `+` of the upper end stays with it, except for the blanks at the end. -/
theorem exists_ends_append_build : ∃ rest', rest' ≠ [] ∧
    Text.trim (last ++ '+' :: rest') = last ++ '+' :: rest' ∧
    Text.pieces " - ".toList (Text.trim (first ++ " - ".toList ++ (last ++ '+' :: rest))) =
      [first, last ++ '+' :: rest'] := by
  obtain ⟨before, after, -, hafter, htext⟩ := Text.exists_blanks_trim rest
  have htrim := Text.trim_trim rest
  generalize Text.trim rest = core at hrest htext htrim
  subst htext
  refine ⟨before ++ core, List.append_ne_nil_of_right_ne_nil before hrest, ?_, ?_⟩
  · simpa using Text.trim_isWord_append hlast htrim hrest ('+' :: before)
  · have hwhole : Text.trim (first ++ " - ".toList ++ (last ++ '+' :: (before ++ core ++ after))) =
        first ++ " - ".toList ++ (last ++ '+' :: (before ++ core)) := by
      have hsplit : first ++ " - ".toList ++ (last ++ '+' :: (before ++ core ++ after)) =
          first ++ (" - ".toList ++ last ++ '+' :: before) ++ core ++ after := by simp
      rw [hsplit, Text.trim_append_blanks hafter, Text.trim_isWord_append hfirst htrim hrest]
      simp
    have hone : ¬ " - ".toList <:+: last ++ '+' :: (before ++ core) := by
      rw [Text.infix_append_cons_iff (by decide) (by decide), not_or]
      exact ⟨fun h => Text.space_notMem_of_isWord hlast (h.subset (by decide)),
        fun h => hhyphen (h.trans (List.prefix_append _ _).isInfix)⟩
    rw [hwhole]
    exact Text.pieces_append_of_pieces (Text.space_notMem_of_isWord hfirst)
      ((Text.pieces_eq_singleton_iff (by decide)).mpr hone)

/-- **The upper end of a hyphen range takes everything behind its `+`**, as long as the arm has no
second ` - `. -/
theorem readTerms_append_build (hplus : '+' ∉ last) :
    readTerms (first ++ " - ".toList ++ (last ++ '+' :: rest)) = .ok terms ↔
      readTerms (first ++ " - ".toList ++ last) = .ok terms := by
  obtain ⟨rest', hne, hupper, hends⟩ := exists_ends_append_build hfirst hlast hrest hhyphen
  simp only [readTerms_ends_eq_ok_iff hends, Range.readTerms_hyphen_eq_ok_iff hfirst hlast, hupper,
    Text.trim_of_isWord hfirst, PartialVersion.read_append_build hplus, ne_eq, hne,
    not_false_eq_true, true_and]

end Swallowed

end Arm

open Arm in
/-- **Build metadata is not read.** In a text that is a range, every version is a plain version,
perhaps with something behind a `+`. In an arm that is no hyphen range there are no blanks in it. In
a hyphen range there are none either if it is build metadata indeed, so that the arm consists of
the two ends and the hyphen. But nobody checks that: any other text in place of the build metadata
of the upper end gives the same arm. -/
theorem build_metadata_not_read (policy : PrereleasePolicy) {text piece : Text} {r : Range}
    (h : Range.ofText policy text = .ok r) (hpiece : piece ∈ Text.pieces "||".toList text) :
    (∀ version ∈ versionTexts piece, ∃ p, PartialVersion.Spelled version p) ∧
      (¬ " - ".toList <:+: Text.trim piece →
        ∀ version ∈ versionTexts piece, Text.IsWord version) ∧
      (" - ".toList <:+: Text.trim piece → ∃ first last, versionTexts piece = [first, last] ∧
        (PartialVersion.HasProperBuild first → PartialVersion.HasProperBuild last →
          Text.words piece = [first, ['-'], last]) ∧
        ∀ core build, Text.cut '+' last = (core, some build) → Text.IsWord first →
          ∀ rest, Text.trim rest ≠ [] → ¬ " - ".toList <:+: rest →
            Arm.read policy (first ++ " - ".toList ++ (core ++ '+' :: rest)) =
              Arm.read policy piece) := by
  obtain ⟨terms, hterms⟩ := Range.exists_readTerms_of_read (mapError_eq_ok_iff.mp h) hpiece
  refine ⟨fun version => spelled_of_mem_versionTexts hterms,
    fun hhyphen version hversion => isWord_of_mem_versionTexts hterms hversion hhyphen,
    fun hhyphen => ?_⟩
  obtain ⟨front, back, hends⟩ := exists_ends_of_readTerms hhyphen hterms
  obtain ⟨p, q, hp, hq, rfl⟩ := (readTerms_ends_eq_ok_iff hends).mp hterms
  refine ⟨Text.trim front, Text.trim back, versionTexts_of_ends hends, fun hfirst hlast => ?_, ?_⟩
  · exact words_of_ends hends ((PartialVersion.read_eq_ok_iff.mp hp).isWord hfirst)
      ((PartialVersion.read_eq_ok_iff.mp hq).isWord hlast)
  · intro core build hcut hfirst rest hrest hmark
    obtain ⟨hlast, hplus⟩ := Text.eq_of_cut_eq_some hcut
    rw [← hlast, PartialVersion.read_append_build hplus] at hq
    have hcore := (PartialVersion.written_of_read hplus hq.2).isWord
    have hsame := (readTerms_append_build hfirst hcore hrest hmark hplus).mpr
      ((Range.readTerms_hyphen_eq_ok_iff hfirst hcore).mpr ⟨p, q, hp, hq.2, rfl⟩)
    rw [Arm.read_eq, Arm.read_eq, hsame, hterms]

/-- In the second arm, a comparator stands behind the `+`, where another one may stand as well. -/
theorem build_metadata_not_read_comparator :
    ∃ r, Range.ofText .included "^1.2+x || 1.0 - 2+b <3".toList = .ok r ∧
      " 1.0 - 2+b <3".toList ∈ Text.pieces "||".toList "^1.2+x || 1.0 - 2+b <3".toList ∧
      " - ".toList <:+: Text.trim " 1.0 - 2+b <3".toList ∧
      Arm.versionTexts " 1.0 - 2+b <3".toList = ["1.0".toList, "2+b <3".toList] ∧
      Arm.read .included "1.0 - 2+ >=1.5".toList = Arm.read .included " 1.0 - 2+b <3".toList := by
  have hread : Range.ofText .included "^1.2+x || 1.0 - 2+b <3".toList = .ok _ := rfl
  have hpiece : " 1.0 - 2+b <3".toList ∈
      Text.pieces "||".toList "^1.2+x || 1.0 - 2+b <3".toList := by decide
  have hhyphen : " - ".toList <:+: Text.trim " 1.0 - 2+b <3".toList :=
    ⟨"1.0".toList, "2+b <3".toList, rfl⟩
  have hversions : Arm.versionTexts " 1.0 - 2+b <3".toList = ["1.0".toList, "2+b <3".toList] := rfl
  obtain ⟨first, last, hends, -, hany⟩ :=
    (build_metadata_not_read .included hread hpiece).2.2 hhyphen
  obtain ⟨rfl, hlast⟩ := List.cons.inj (hversions.symm.trans hends)
  obtain rfl := List.singleton_inj.mp hlast
  refine ⟨_, hread, hpiece, hhyphen, hversions, ?_⟩
  exact hany "2".toList "b <3".toList rfl (by decide) " >=1.5".toList (by decide)
    ((Text.pieces_eq_singleton_iff (by decide)).mp rfl)

/-- In `1 - 2+a <1.5` the bound `<1.5` is written, and `1.6.0` is in the range. -/
theorem exists_bound_behind_build : ∃ (text version build : Text) (r s : Range),
    Range.ofText .named text = .ok r ∧ Text.pieces "||".toList text = [text] ∧
      version ∈ Arm.versionTexts text ∧ Text.cut '+' version = ("2".toList, some build) ∧
      readBuild? build = none ∧ ' ' ∈ version ∧ "<1.5".toList ∈ Text.words text ∧
      Range.ofText .named "<1.5".toList = .ok s ∧
      ({ major := 1, minor := 6, patch := 0 } : Version) ∈ r ∧
      ({ major := 1, minor := 6, patch := 0 } : Version) ∉ s :=
  ⟨"1 - 2+a <1.5".toList, "2+a <1.5".toList, "a <1.5".toList, _, _, rfl, rfl, by decide, rfl, rfl,
    by decide, by decide, rfl, by decide, by decide⟩

end JuliaReleases
