import JuliaReleases.CompatRange.Error
import JuliaReleases.Proofs.Range.RoundTrip
import JuliaReleases.Proofs.Text.Occurrence
import JuliaReleases.Proofs.Version.Canonical

/-!
# The grammar of ranges

What a range is written like is said here once more, without a reader: layer by layer there is an
inductive description of the texts, and the reader of that layer accepts these texts and no others.

| description | reader |
|---|---|
| `JuliaReleases.PartialVersion.Component` | `JuliaReleases.PartialVersion.readComponent` |
| `JuliaReleases.PartialVersion.Written` | `JuliaReleases.PartialVersion.read` |
| `JuliaReleases.Term.Written` | `JuliaReleases.Term.read` |
| `JuliaReleases.Glues` | `JuliaReleases.attachOperators` |
| `JuliaReleases.Arm.Written` | `JuliaReleases.Arm.readTerms` |

The descriptions carry along what is read, so they are not about acceptance alone. Build metadata
are left out: behind a `+` anything may stand, and nobody looks at it. For a text without that sign
`JuliaReleases.range_iff_grammar` puts the layers together.
-/

namespace JuliaReleases

/-! ### Components and versions -/

namespace PartialVersion

/-- **A component as it is written**, and the number that it gives. -/
inductive Component : Text → Option Nat → Prop
  /-- A wildcard gives none. -/
  | wildcard {c : Char} : c ∈ ['x', 'X', '*'] → Component [c] none
  /-- A numeral has no leading zero. -/
  | number {n : Nat} : n ≤ maxNumber → Component (Decimal.write n) (some n)

/-- What may stand in front of a version: nothing, or one letter. -/
def fronts : List Text :=
  [[], ['v']]

/-- **A plain version as it is written**, and the partial version that it stands for. -/
inductive Written : Text → PartialVersion → Prop
  /-- One to three components with points between them. -/
  | components {front : Text} {texts : List Text} {values : List (Option Nat)} : front ∈ fronts →
      1 ≤ texts.length → texts.length ≤ 3 → List.Forall₂ Component texts values →
      Written (front ++ dotted texts) (ofComponents values)
  /-- Three numbers, and a prerelease behind a hyphen. -/
  | prerelease {front : Text} {a b c : Nat} {pre : List PreIdentifier} : front ∈ fronts →
      a ≤ maxNumber → b ≤ maxNumber → c ≤ maxNumber → pre ≠ [] →
      Written (front ++ (dotted [Decimal.write a, Decimal.write b, Decimal.write c] ++
        '-' :: dotted (pre.map (·.text)))) (.full a b c pre)

variable {text : Text} {p : PartialVersion}

theorem readComponent_eq_ok_iff {value : Option Nat} :
    readComponent text = .ok value ↔ Component text value := by
  constructor
  · intro h
    have hle := fun n (hn : value = some n) => le_maxNumber_of_readComponent (hn ▸ h)
    unfold readComponent at h
    split at h
    · next hwildcard =>
      obtain rfl : none = value := Except.ok.inj h
      rcases hwildcard with rfl | rfl | rfl <;> exact .wildcard (by decide)
    · split at h
      · exact absurd h (by simp)
      · split at h
        · exact absurd h (by simp)
        · next hzero =>
          split at h
          · next n hread =>
            obtain rfl : some n = value := Except.ok.inj h
            rw [← Decimal.write_of_read? (by simpa using hzero) hread]
            exact .number (hle n rfl)
          · exact absurd h (by simp)
  · rintro (hc | hn)
    · simp only [List.mem_cons, List.not_mem_nil, or_false] at hc
      rcases hc with rfl | rfl | rfl <;> rfl
    · exact readComponent_write hn

theorem mapM_readComponent_eq_ok_iff {texts : List Text} {values : List (Option Nat)} :
    texts.mapM readComponent = .ok values ↔ List.Forall₂ Component texts values := by
  simp only [mapM_eq_ok_iff_forall₂, readComponent_eq_ok_iff]

/-- A component is no empty text, and consists of digits or of a single wildcard. -/
theorem Component.char {component : Text} {value : Option Nat} (h : Component component value) :
    component ≠ [] ∧ ∀ c ∈ component, c.isDigit = true ∨ c ∈ ['x', 'X', '*'] := by
  cases h with
  | wildcard hmem =>
    exact ⟨List.cons_ne_nil _ _, fun c hc => .inr (List.mem_singleton.mp hc ▸ hmem)⟩
  | number hn =>
    exact ⟨Decimal.write_ne_nil _, fun c hc => .inl (Decimal.isDigit_of_mem_write hc)⟩

section Dotted

variable {texts : List Text} {values : List (Option Nat)}
  (h : List.Forall₂ Component texts values)
include h

theorem char_of_mem_texts {t : Text} (ht : t ∈ texts) :
    t ≠ [] ∧ ∀ c ∈ t, c.isDigit = true ∨ c ∈ ['x', 'X', '*'] := by
  obtain ⟨value, -, hvalue⟩ :=
    exists_mem_of_mem_read (mapM_eq_ok_iff.mp (mapM_readComponent_eq_ok_iff.mpr h)) ht
  exact (readComponent_eq_ok_iff.mp hvalue).char

theorem char_of_mem_dotted {c : Char} (hc : c ∈ dotted texts) :
    c.isDigit = true ∨ c ∈ ['.', 'x', 'X', '*'] := by
  rcases Text.mem_intercalate hc with rfl | ⟨t, ht, hc⟩
  · exact .inr (by decide)
  · exact ((char_of_mem_texts h ht).2 c hc).imp_right (List.mem_cons_of_mem _)

/-- Components with points between them are found again. -/
theorem splitOn_dotted_components (hne : texts ≠ []) : (dotted texts).splitOn '.' = texts := by
  refine splitOn_dotted hne fun t ht hdot => ?_
  rcases (char_of_mem_texts h ht).2 '.' hdot with hc | hc <;> exact absurd hc (by decide)

theorem dotted_ne_nil (hne : texts ≠ []) : dotted texts ≠ [] := by
  obtain ⟨t, ts, rfl⟩ := List.exists_cons_of_ne_nil hne
  obtain ⟨rest, hrest⟩ := Text.exists_intercalate_cons ['.'] t ts
  rw [dotted, hrest]
  exact List.append_ne_nil_of_left_ne_nil (char_of_mem_texts h List.mem_cons_self).1 rest

end Dotted

/-- The letter in front of a version is taken off. -/
theorem stripPrefix_front {front : Text} (hfront : front ∈ fronts) (htext : 'v' ∉ text.head?) :
    Tag.stripPrefix (front ++ text) = text := by
  simp only [fronts, List.mem_cons, List.not_mem_nil, or_false] at hfront
  rcases hfront with rfl | rfl
  · cases text with
    | nil => rfl
    | cons c rest => exact Tag.stripPrefix_cons (by rintro rfl; exact htext rfl) rest
  · rfl

/-- The letter in front of a version does not count. -/
theorem read_front {front : Text} (hfront : front ∈ fronts) (htext : 'v' ∉ text.head?) :
    read (front ++ text) = read text := by
  have hstrip : Tag.stripPrefix text = text := stripPrefix_front (by decide : [] ∈ fronts) htext
  simp only [read, stripPrefix_front hfront htext, hstrip]

/-- **A plain version is read as what it stands for.** -/
theorem read_of_written (h : Written text p) : read text = .ok p := by
  cases h with
  | @components front texts values hfront hone hthree hvalues =>
    have hne : texts ≠ [] := List.length_pos_iff.mp hone
    have hnot : ∀ c ∈ ['v', '+', '-'], c ∉ dotted texts := by
      intro c hc hmem
      simp only [List.mem_cons, List.not_mem_nil, or_false] at hc
      rcases hc with rfl | rfl | rfl <;>
        rcases char_of_mem_dotted hvalues hmem with h | h <;> exact absurd h (by decide)
    have hstrip : Tag.stripPrefix (dotted texts) = dotted texts := by
      cases hdotted : dotted texts with
      | nil => rfl
      | cons c rest =>
        refine Tag.stripPrefix_cons ?_ rest
        rintro rfl
        exact hnot 'v' (by decide) (hdotted ▸ List.mem_cons_self)
    rw [read_front hfront fun hv => hnot 'v' (by decide) (List.mem_of_mem_head? hv)]
    simp only [read, hstrip, if_neg (dotted_ne_nil hvalues hne),
      Text.cut_of_not_mem (hnot '+' (by decide)), Text.cut_of_not_mem (hnot '-' (by decide)),
      splitOn_dotted_components hvalues hne, if_neg (Nat.not_lt.mpr hthree),
      mapM_readComponent_eq_ok_iff.mpr hvalues]
    rfl
  | @prerelease front a b c pre hfront ha hb hc hpre =>
    let v : Version := { major := a, minor := b, patch := c, pre }
    have hcore : v.coreText = dotted [Decimal.write a, Decimal.write b, Decimal.write c] ++
        '-' :: dotted (pre.map (·.text)) := by
      rw [Version.coreText, if_neg hpre]
      rfl
    obtain ⟨d, rest, hhead, hd⟩ := v.exists_coreText_eq_cons
    have hletter : 'v' ∉ v.coreText.head? := by
      rw [hhead]
      intro hv
      obtain rfl : d = 'v' := Option.some.inj hv
      exact absurd hd (by decide)
    rw [← hcore, read_front hfront hletter]
    exact read_coreText ha hb hc

/-- Only a full version takes a prerelease. -/
theorem withPrerelease_some_eq_ok {version pre : Text} {q : PartialVersion}
    (h : withPrerelease version (some pre) q = .ok p) : ∃ a b c old identifiers,
      q = .full a b c old ∧ readPrerelease pre = .ok identifiers ∧
        p = .full a b c identifiers := by
  cases pre with
  | nil => exact absurd h (by simp [withPrerelease])
  | cons ch rest =>
    cases q with
    | full a b c old =>
      simp only [withPrerelease] at h
      split at h
      · next identifiers hread =>
        exact ⟨a, b, c, old, identifiers, rfl, hread, (Except.ok.inj h).symm⟩
      · exact absurd h (by simp)
    | wildcard | major a | minor a b => exact absurd h (by simp [withPrerelease])

/-- A full version has three components, and these are numbers. -/
theorem eq_of_ofComponents_eq_full {values : List (Option Nat)} {a b c : Nat}
    {pre : List PreIdentifier} (hlength : values.length ≤ 3)
    (h : ofComponents values = .full a b c pre) : values = [some a, some b, some c] := by
  unfold ofComponents at h
  split at h
  · next a' b' c' more =>
    obtain rfl : more = [] := by
      refine List.eq_nil_of_length_eq_zero ?_
      simp only [List.length_cons] at hlength
      omega
    obtain ⟨rfl, rfl, rfl, -⟩ := PartialVersion.full.inj h
    rfl
  all_goals exact absurd h (by simp)

/-- Components that are numbers are the written forms of these numbers. -/
theorem eq_write_of_forall₂_component {texts : List Text} {numbers : List Nat}
    (h : List.Forall₂ Component texts (numbers.map some)) :
    texts = numbers.map Decimal.write ∧ ∀ n ∈ numbers, n ≤ maxNumber := by
  induction numbers generalizing texts with
  | nil =>
    obtain rfl := List.forall₂_nil_right_iff.mp h
    simp
  | cons n numbers ih =>
    obtain ⟨t, ts, ht, hts, rfl⟩ := List.forall₂_cons_right_iff.mp h
    obtain ⟨rfl, hrest⟩ := ih hts
    cases ht with
    | number hn => exact ⟨rfl, List.forall_mem_cons.mpr ⟨hn, hrest⟩⟩

/-- **What is read as a version is a plain version**, if it has no build metadata. -/
theorem written_of_read (hplus : '+' ∉ text) (h : read text = .ok p) : Written text p := by
  obtain ⟨front, hfront, htext⟩ : ∃ front ∈ fronts, front ++ Tag.stripPrefix text = text := by
    unfold Tag.stripPrefix
    split
    · exact ⟨['v'], by decide, rfl⟩
    · exact ⟨[], by decide, rfl⟩
  obtain ⟨version, values, hversion, hlength, hvalues, hpre⟩ := exists_components_of_read h
  have hwhole : version = Tag.stripPrefix text := by
    rw [hversion, Text.cut_of_not_mem]
    exact fun hmem => hplus (htext ▸ List.mem_append_right _ hmem)
  have hcut := Text.append_cut '-' version
  have hdotted := dotted_splitOn (Text.cut '-' version).1
  have hsplit := List.splitOn_ne_nil '.' (Text.cut '-' version).1
  rw [mapM_readComponent_eq_ok_iff] at hvalues
  rw [← htext, ← hwhole]
  cases hsuffix : (Text.cut '-' version).2 with
  | none =>
    rw [hsuffix] at hpre hcut
    obtain rfl : ofComponents values = p := Except.ok.inj hpre
    rw [Option.elim_none, List.append_nil] at hcut
    rw [← hcut, ← hdotted]
    exact .components hfront (List.length_pos_iff.mpr hsplit)
      (hvalues.length_eq ▸ hlength) hvalues
  | some suffix =>
    rw [hsuffix] at hpre hcut
    obtain ⟨a, b, c, old, identifiers, hfull, hread, rfl⟩ := withPrerelease_some_eq_ok hpre
    obtain ⟨hne, hidentifiers⟩ := dotted_of_readPrerelease hread
    replace hvalues : List.Forall₂ Component _ ([a, b, c].map some) :=
      eq_of_ofComponents_eq_full hlength hfull ▸ hvalues
    obtain ⟨htexts, hle⟩ := eq_write_of_forall₂_component hvalues
    simp only [List.forall_mem_cons] at hle
    rw [← hcut, ← hdotted, Option.elim_some, ← hidentifiers, htexts]
    exact .prerelease hfront hle.1 hle.2.1 hle.2.2.1 hne

end PartialVersion

/-! ### Tokens -/

namespace Operator

variable {op op' : Operator} {text rest : Text}

theorem eq_append_of_split (h : split text = (some op, rest)) : text = op.write ++ rest := by
  unfold split at h
  split at h
  · next found hfound =>
    have hop := congrArg Prod.fst h
    have hrest := congrArg Prod.snd h
    simp only [Option.some.injEq] at hop hrest
    have hstart := List.find?_some hfound
    obtain ⟨more, rfl⟩ := List.isPrefixOf_iff_prefix.mp hstart
    rw [← hop, ← hrest, List.drop_left]
  · exact absurd h (by simp)

/-- No operator is taken off a text if it starts with none. -/
theorem not_prefix_of_split (h : split text = (none, rest)) (op : Operator) :
    ¬ op.write <+: text := by
  unfold split at h
  split at h
  · exact absurd h (by simp)
  · next hnone =>
    intro hstart
    have hmem : op ∈ all := by cases op <;> decide
    exact List.find?_eq_none.mp hnone op hmem (List.isPrefixOf_iff_prefix.mpr hstart)

/-- An operator in front of a text is the longest one at its front, unless the text starts
with `=`. -/
theorem prefix_write_of_prefix_append (h : ∀ rest, text ≠ '=' :: rest)
    (hstart : op'.write <+: op.write ++ text) : op'.write <+: op.write := by
  cases text with
  | nil => rwa [List.append_nil] at hstart
  | cons c rest =>
    have hc : '=' ≠ c := by
      rintro rfl
      exact h rest rfl
    revert hstart
    cases op <;> cases op' <;> simp [write, List.cons_prefix_cons, hc]

end Operator

/-- **A token as it is written**: a plain version, perhaps behind an operator, and then behind the
longest operator that the token starts with. -/
inductive Term.Written : Text → Term → Prop
  /-- Without an operator. -/
  | bare {text : Text} {p : PartialVersion} : (∀ op : Operator, ¬ op.write <+: text) →
      p.Written text → Written text ⟨.operand .eq, p⟩
  /-- Behind an operator. -/
  | operand {text : Text} {p : PartialVersion} {op : Operator} :
      (∀ op' : Operator, op'.write <+: op.write ++ text → op'.write <+: op.write) →
      p.Written text → Written (op.write ++ text) ⟨.operand op, p⟩

/-- **A token is read as what it stands for.** -/
theorem Term.Written.read_eq {token : Text} {t : Term} (h : t.Written token) :
    Term.read token = .ok t := by
  cases h with
  | bare hnone hp => exact Term.read_of_read (PartialVersion.read_of_written hp)
  | operand hlongest hp => exact Term.read_append_of_read (PartialVersion.read_of_written hp) _

/-- **What is read as a token is written as one**, if it has no build metadata. -/
theorem Term.written_of_read {token : Text} {t : Term} (hplus : '+' ∉ token)
    (h : Term.read token = .ok t) : t.Written token := by
  unfold Term.read at h
  split at h
  · next version hsplit =>
    obtain ⟨p, hp, rfl⟩ := map_eq_ok_iff.mp h
    obtain rfl : version = token := by
      rw [← Operator.operand_of_split_eq_none (congrArg Prod.fst hsplit), Operator.operand, hsplit]
    exact .bare (Operator.not_prefix_of_split hsplit) (PartialVersion.written_of_read hplus hp)
  · next op version hsplit =>
    split at h
    · exact absurd h (by simp)
    · obtain ⟨p, hp, rfl⟩ := map_eq_ok_iff.mp h
      obtain rfl := Operator.eq_append_of_split hsplit
      rw [List.mem_append, not_or] at hplus
      exact .operand
        (fun _ => Operator.prefix_write_of_prefix_append (PartialVersion.ne_eq_cons_of_read hp))
        (PartialVersion.written_of_read hplus.2 hp)

/-! ### Words and tokens -/

/-- **Words and the tokens that they make**: a word that is an operator, and nothing more, is glued
to the next one, which must not be such a word. -/
inductive Glues : List Text → List Text → Prop
  /-- No words make no tokens. -/
  | nil : Glues [] []
  /-- Any other word is a token. -/
  | word {word : Text} {words tokens : List Text} : (∀ op : Operator, word ≠ op.write) →
      Glues words tokens → Glues (word :: words) (word :: tokens)
  /-- A lone operator and the word behind it. -/
  | operator {op : Operator} {word : Text} {words tokens : List Text} :
      (∀ op' : Operator, word ≠ op'.write) → Glues words tokens →
      Glues (op.write :: word :: words) ((op.write ++ word) :: tokens)

theorem Operator.read?_eq_none_iff {word : Text} :
    Operator.read? word = none ↔ ∀ op : Operator, word ≠ op.write := by
  simp only [Option.eq_none_iff_forall_ne_some, ne_eq, Operator.read?_eq_some_iff]

theorem attachOperators_eq_ok_iff {words tokens : List Text} :
    attachOperators words = .ok tokens ↔ Glues words tokens := by
  constructor
  · intro h
    fun_induction attachOperators words generalizing tokens with
    | case1 =>
      obtain rfl : [] = tokens := Except.ok.inj h
      exact .nil
    | case2 word words hword ih =>
      obtain ⟨rest, hrest, rfl⟩ := map_eq_ok_iff.mp h
      exact .word (Operator.read?_eq_none_iff.mp hword) (ih hrest)
    | case3 word op hword => exact absurd h (by simp)
    | case4 word op hword next words second hnext => exact absurd h (by simp)
    | case5 word op hword next words hnext ih =>
      obtain ⟨rest, hrest, rfl⟩ := map_eq_ok_iff.mp h
      obtain rfl : word = op.write := Operator.read?_eq_some_iff.mp hword
      exact .operator (Operator.read?_eq_none_iff.mp hnext) (ih hrest)
  · intro h
    induction h with
    | nil => rfl
    | word hword hrest ih =>
      rw [attachOperators, Operator.read?_eq_none_iff.mpr hword, ih]
      rfl
    | @operator op word words tokens hword hrest ih =>
      have hop : Operator.read? op.write = some op := Operator.read?_eq_some_iff.mpr rfl
      simp only [attachOperators, hop, Operator.read?_eq_none_iff.mpr hword, ih]
      rfl

/-- The characters of the tokens are those of the words. -/
theorem Glues.mem_word {words tokens : List Text} (h : Glues words tokens) {token : Text}
    (htoken : token ∈ tokens) {c : Char} (hc : c ∈ token) : ∃ word ∈ words, c ∈ word := by
  induction h with
  | nil => exact absurd htoken (by simp)
  | word hword hrest ih =>
    rcases List.mem_cons.mp htoken with rfl | htoken
    · exact ⟨_, List.mem_cons_self, hc⟩
    · obtain ⟨w, hw, hcw⟩ := ih htoken
      exact ⟨w, List.mem_cons_of_mem _ hw, hcw⟩
  | operator hword hrest ih =>
    rcases List.mem_cons.mp htoken with rfl | htoken
    · rcases List.mem_append.mp hc with hc | hc
      · exact ⟨_, List.mem_cons_self, hc⟩
      · exact ⟨_, List.mem_cons_of_mem _ List.mem_cons_self, hc⟩
    · obtain ⟨w, hw, hcw⟩ := ih htoken
      exact ⟨w, List.mem_cons_of_mem _ (List.mem_cons_of_mem _ hw), hcw⟩

/-! ### Arms -/

/-- **An arm as it is written**, without blanks at its ends, and the terms that it consists of. -/
inductive Arm.Written : Text → List Term → Prop
  /-- A hyphen range has two ends. -/
  | hyphen {text first last : Text} {p q : PartialVersion} : " - ".toList <:+: text →
      Text.pieces " - ".toList text = [first, last] → p.Written (Text.trim first) →
      q.Written (Text.trim last) → Written text [⟨.lowerEnd, p⟩, ⟨.operand .le, q⟩]
  /-- Any other arm is a list of tokens. -/
  | tokens {text : Text} {tokens : List Text} {terms : List Term} : ¬ " - ".toList <:+: text →
      Glues (Text.words text) tokens → List.Forall₂ (fun token t => t.Written token) tokens terms →
      Written text terms

theorem Text.mem_of_mem_trim {text : Text} {c : Char} (h : c ∈ trim text) : c ∈ text :=
  (trim_isInfix text).subset h

section Arm

variable {text : Text} {terms : List Term}

/-- **The terms of an arm that is no hyphen range** are what its tokens are read as. -/
theorem Arm.readTerms_eq_ok_iff (h : ¬ " - ".toList <:+: Text.trim text) :
    Arm.readTerms text = .ok terms ↔
      ∃ tokens, Glues (Text.words text) tokens ∧ tokens.map Term.read = terms.map .ok := by
  simp only [Arm.readTerms, (Text.pieces_eq_singleton_iff (by decide)).mpr h, Text.words_trim,
    bind_eq_ok_iff, attachOperators_eq_ok_iff, mapM_eq_ok_iff]

/-- Any other arm has two ends. -/
theorem Arm.exists_ends_of_readTerms (hhyphen : " - ".toList <:+: Text.trim text)
    (h : Arm.readTerms text = .ok terms) :
    ∃ first last, Text.pieces " - ".toList (Text.trim text) = [first, last] := by
  have hlength := mt (Text.length_pieces_eq_one_iff (by decide)).mp (not_not.mpr hhyphen)
  rw [Arm.readTerms] at h
  rcases hpieces : Text.pieces " - ".toList (Text.trim text) with _ | ⟨first, _ | ⟨last, _ | _⟩⟩ <;>
    rw [hpieces] at h hlength
  · exact absurd h (by simp)
  · exact absurd rfl hlength
  · exact ⟨first, last, rfl⟩
  · exact absurd h (by simp)

theorem Arm.readTerms_of_written (h : Arm.Written (Text.trim text) terms) :
    Arm.readTerms text = .ok terms := by
  generalize htrim : Text.trim text = arm at h
  cases h with
  | hyphen hhyphen hends hp hq =>
    subst htrim
    exact (Arm.readTerms_ends_eq_ok_iff hends).mpr
      ⟨_, _, PartialVersion.read_of_written hp, PartialVersion.read_of_written hq, rfl⟩
  | tokens hhyphen hglues hterms =>
    subst htrim
    rw [Text.words_trim] at hglues
    have hread := hterms.imp fun _ _ ht => ht.read_eq
    exact (Arm.readTerms_eq_ok_iff hhyphen).mpr
      ⟨_, hglues, mapM_eq_ok_iff.mp (mapM_eq_ok_iff_forall₂.mpr hread)⟩

/-- **What is read as an arm is written as one**, if it has no build metadata. -/
theorem Arm.written_of_readTerms (hplus : '+' ∉ text) (h : Arm.readTerms text = .ok terms) :
    Arm.Written (Text.trim text) terms := by
  by_cases hhyphen : " - ".toList <:+: Text.trim text
  · obtain ⟨first, last, hends⟩ := Arm.exists_ends_of_readTerms hhyphen h
    obtain ⟨p, q, hp, hq, rfl⟩ := (Arm.readTerms_ends_eq_ok_iff hends).mp h
    have hend : ∀ piece ∈ [first, last], '+' ∉ Text.trim piece := by
      intro piece hpiece hmem
      have hhyphen := Text.infix_of_mem_pieces (by decide) (hends ▸ hpiece)
      exact hplus (Text.mem_of_mem_trim (hhyphen.subset (Text.mem_of_mem_trim hmem)))
    exact .hyphen hhyphen hends (PartialVersion.written_of_read (hend first (by simp)) hp)
      (PartialVersion.written_of_read (hend last (by simp)) hq)
  · obtain ⟨tokens, hglues, hread⟩ := (Arm.readTerms_eq_ok_iff hhyphen).mp h
    have htoken : ∀ token ∈ tokens, '+' ∉ token := by
      intro token htoken hmem
      obtain ⟨word, hword, hmem⟩ := hglues.mem_word htoken hmem
      exact hplus (Text.mem_of_mem_words hword hmem)
    have hboth := (List.forall₂_and_left _ _).mpr
      ⟨htoken, mapM_eq_ok_iff_forall₂.mp (mapM_eq_ok_iff.mpr hread)⟩
    rw [← Text.words_trim] at hglues
    exact .tokens hhyphen hglues (hboth.imp fun _ _ ht => Term.written_of_read ht.1 ht.2)

end Arm

/-- **The grammar of ranges.** A text without build metadata is a range, whatever the policy on
prereleases, if and only if every piece between marks `||` is, without the blanks at its ends, the
written form of an arm. -/
theorem range_iff_grammar (policy : PrereleasePolicy) {text : Text} (hplus : '+' ∉ text) :
    (∃ r, Range.ofText policy text = .ok r) ↔
      ∀ piece ∈ Text.pieces "||".toList text, ∃ terms, Arm.Written (Text.trim piece) terms := by
  have hpiece : ∀ piece ∈ Text.pieces "||".toList text, '+' ∉ piece := fun piece hpiece hmem =>
    hplus ((Text.infix_of_mem_pieces (by decide) hpiece).subset hmem)
  constructor
  · rintro ⟨r, hr⟩ piece hmem
    obtain ⟨arms, harms, -⟩ := map_eq_ok_iff.mp ((Range.read_eq policy text).symm.trans
      (mapError_eq_ok_iff.mp hr))
    obtain ⟨terms, -, hterms⟩ := exists_mem_of_mem_read (mapM_eq_ok_iff.mp harms) hmem
    exact ⟨terms, Arm.written_of_readTerms (hpiece piece hmem) hterms⟩
  · intro h
    obtain ⟨arms, harms⟩ := exists_results (f := Arm.readTerms) fun piece hmem => by
      obtain ⟨terms, hterms⟩ := h piece hmem
      exact ⟨terms, Arm.readTerms_of_written hterms⟩
    refine ⟨{ arms := arms.map (Arm.ofTerms policy), policy }, mapError_eq_ok_iff.mpr ?_⟩
    rw [Range.read_eq, Range.readTerms, mapM_eq_ok_iff.mpr harms]
    rfl

/-- A hyphen range, an operator that stands apart from its version, and a prerelease. -/
theorem range_iff_grammar_alternatives :
    '+' ∉ "v1.x - 2 || >= 1.3.0-rc1 <1.*.7".toList ∧
      ((∃ r, Range.ofText .named "v1.x - 2 || >= 1.3.0-rc1 <1.*.7".toList = .ok r) ↔
        ∀ piece ∈ Text.pieces "||".toList "v1.x - 2 || >= 1.3.0-rc1 <1.*.7".toList,
          ∃ terms, Arm.Written (Text.trim piece) terms) :=
  ⟨by decide, range_iff_grammar .named (by decide)⟩

end JuliaReleases
