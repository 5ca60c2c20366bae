import JuliaReleases.Proofs.Range.Meaning
import JuliaReleases.Proofs.Text.Occurrence

/-!
# A caret in front of a range

A range that starts with a bare version takes it for what `=` means. An operator in front of such a
range belongs to this first version, whatever blanks stand between the two, and changes nothing
behind it (`JuliaReleases.Range.exists_read_operator_append`). So the question what a `^` in front
changes is a question on one partial version, and the answer is
`JuliaReleases.PartialVersion.CaretIsExact`:

* no number at all, or the major number alone, or `0` with a minor number mean the same either way,
  since `^` fixes all numbers that are given;
* any other major and minor number do not: with `^` the minor number may grow. The exception is the
  greatest number in both places, which no upper bound can lie behind, so there is no member either
  way;
* a full version never means the same, since without operator it is meant literally, and not even
  a build of it belongs to the range.
-/

namespace JuliaReleases

/-! ### An operator in front of an arm -/

section Front

variable {word text before after : Text} {words : List Text}

theorem attachOperators_cons (hword : Operator.read? word = none) :
    attachOperators (word :: words) = (word :: ·) <$> attachOperators words := by
  rw [attachOperators, hword]

theorem attachOperators_operator_cons (op : Operator) (hword : Operator.read? word = none) :
    attachOperators (op.write :: word :: words) =
      ((op.write ++ word) :: ·) <$> attachOperators words := by
  have hop : Operator.read? op.write = some op := Operator.read?_eq_some_iff.mpr rfl
  rw [attachOperators, hop]
  simp only [hword]

/-- Blanks in front of a text without a space do not make the hyphen of a hyphen range. -/
theorem Text.not_hyphen_infix (hbefore : ∀ c ∈ before, isBlank c = true) (htext : ' ' ∉ text) :
    ¬ " - ".toList <:+: before ++ text := by
  rintro ⟨front, rest, h⟩
  have hcut : (front ++ [' ', '-']) ++ (' ' :: rest) = before ++ text := by
    rw [← h]
    simp
  -- The hyphen is no blank, so it lies in the text, and the space behind it does, too.
  rcases List.append_eq_append_iff.mp hcut with ⟨more, hmore, -⟩ | ⟨more, -, hmore⟩
  · exact absurd (hbefore '-' (by simp [hmore])) (by decide)
  · exact htext (by simp [hmore])

namespace Operator

variable (op : Operator)

/-- Of what starts with an operator and ends with a trimmed text only blanks at the end fall
away. -/
theorem trim_write_append (htrim : Text.trim text = text) (hne : text ≠ [])
    (hafter : ∀ c ∈ after, isBlank c = true) (before : Text) :
    Text.trim (op.write ++ before ++ text ++ after) = op.write ++ before ++ text := by
  rw [Text.trim_append_blanks hafter, List.append_assoc]
  refine Text.trim_eq_self (fun c hc => ?_) fun c hc => ?_
  · rw [List.head?_append_of_ne_nil _ op.write_ne_nil] at hc
    exact op.isWord_write.2 c (List.mem_of_mem_head? hc)
  · rw [List.getLast?_append_of_ne_nil _ (by simp [hne]),
      List.getLast?_append_of_ne_nil _ hne] at hc
    exact Text.getLast?_trim text c (by rwa [htrim])

/-- An operator in front does not make a hyphen range. -/
theorem pieces_write_append (hbefore : ∀ c ∈ before, isBlank c = true) (hspace : ' ' ∉ text) :
    Text.pieces " - ".toList (op.write ++ before ++ text) = [op.write ++ before ++ text] := by
  have hout : ∀ c ∈ op.write, c ∉ " - ".toList := fun c hc =>
    notMem_of_mem_write (by simp [starts]) hc
  rw [Text.pieces_eq_singleton_iff (by decide), List.append_assoc,
    Text.infix_append_iff_of_disjoint hout (by decide)]
  exact Text.not_hyphen_infix hbefore hspace

/-- **An operator in front of words** is attached to the first one, with or without blanks between
the two. -/
theorem attachOperators_write_append (hbefore : ∀ c ∈ before, isBlank c = true)
    (hwords : Text.words text = word :: words)
    (hfront : Text.words (op.write ++ text) = (op.write ++ word) :: words)
    (hword : Operator.read? word = none) (hop : Operator.read? (op.write ++ word) = none) :
    attachOperators (Text.words (op.write ++ before ++ text)) =
      ((op.write ++ word) :: ·) <$> attachOperators words := by
  cases before with
  | nil => rw [List.append_nil, hfront, attachOperators_cons hop]
  | cons b before =>
    obtain ⟨hb, hbefore⟩ := List.forall_mem_cons.mp hbefore
    rw [List.append_assoc, List.cons_append, Text.words_append_cons hb,
      Text.words_of_isWord op.isWord_write, Text.words_blanks_append hbefore, hwords,
      List.singleton_append, attachOperators_operator_cons op hword]

end Operator

end Front

section Operator

variable {text : Text} (hspace : ' ' ∉ text) (htrim : Text.trim text = text)
  (hne : text ≠ []) (hstart : ∀ c ∈ text.head?, c ∉ Operator.starts)
include hspace htrim hne hstart

/-- **An operator in front of an arm** belongs to its first version. -/
theorem Arm.exists_readTerms_operator_append {terms : List Term}
    (h : Arm.readTerms text = .ok terms) :
    ∃ word words p others, Text.words text = word :: words ∧ PartialVersion.read word = .ok p ∧
      terms = ⟨.operand .eq, p⟩ :: others ∧ (words = [] → others = []) ∧
      ∀ (op : Operator) (before after : Text), (∀ c ∈ before, isBlank c = true) →
        (∀ c ∈ after, isBlank c = true) →
        Arm.readTerms (op.write ++ before ++ text ++ after) = .ok (⟨.operand op, p⟩ :: others) := by
  obtain ⟨c, rest, rfl⟩ := List.exists_cons_of_ne_nil hne
  have hc : isBlank c = false := Text.head?_trim (c :: rest) c (by rw [htrim]; rfl)
  obtain ⟨more, words, hwords, hfront⟩ := Text.exists_words_eq_cons hc rest
  have hnone : ∀ more : Text, Operator.read? (c :: more) = none :=
    Operator.read?_cons_of_notMem (hstart c rfl)
  -- What is read without the operator.
  rw [Arm.readTerms, htrim, Text.pieces_of_not_mem (by decide) hspace, hwords,
    attachOperators_cons (hnone more)] at h
  obtain ⟨tokens, htokens, hterms⟩ := bind_eq_ok_iff.mp h
  obtain ⟨tokens, hattach, rfl⟩ := map_eq_ok_iff.mp htokens
  have hread := mapM_eq_ok_iff.mp hterms
  obtain ⟨t, others, rfl⟩ : ∃ t others, terms = t :: others :=
    List.exists_cons_of_ne_nil fun hnil => by simp [hnil] at hread
  obtain ⟨ht, hothers⟩ := List.cons.inj hread
  have hsplit : Operator.split (c :: more) = (none, c :: more) :=
    Operator.split_of_not_mem (hstart c rfl) more
  obtain ⟨role, p⟩ := t
  obtain rfl : role = .operand .eq := by simpa [hsplit] using Term.role_of_read ht
  have hp : PartialVersion.read (c :: more) = .ok p := by
    simpa [Operator.operand, hsplit] using (Term.read_eq_ok ht).2
  refine ⟨c :: more, words, p, others, hwords, hp, rfl, ?_, ?_⟩
  · rintro rfl
    obtain rfl := Except.ok.inj hattach
    simpa using hothers.symm
  intro op before after hbefore hafter
  -- What is read with the operator: the same tokens, except for the first.
  have hattached : attachOperators (Text.words (op.write ++ before ++ c :: rest)) =
      .ok ((op.write ++ c :: more) :: tokens) := by
    rw [op.attachOperators_write_append hbefore hwords (hfront op.write op.isWord_write.2)
      (hnone more) (PartialVersion.read?_append_of_read hp op), hattach]
    rfl
  have hop : Term.read (op.write ++ c :: more) = .ok ⟨.operand op, p⟩ :=
    Term.read_append_of_read hp op
  rw [Arm.readTerms, op.trim_write_append htrim hne hafter, op.pieces_write_append hbefore hspace]
  refine bind_eq_ok_iff.mpr ⟨_, hattached, mapM_eq_ok_iff.mpr ?_⟩
  rw [List.map_cons, List.map_cons, hop, hothers]

/-- **An operator in front of a range of one arm** belongs to its first version. -/
theorem Range.exists_read_operator_append {policy : PrereleasePolicy} {r : Range}
    (hbar : ¬ "||".toList <:+: text) (h : Range.read policy text = .ok r) :
    ∃ word words p others, Text.words text = word :: words ∧ PartialVersion.read word = .ok p ∧
      r = ofTerms policy (⟨.operand .eq, p⟩ :: others) ∧ (words = [] → others = []) ∧
      ∀ (op : Operator) (before after : Text), (∀ c ∈ before, isBlank c = true) →
        (∀ c ∈ after, isBlank c = true) → Range.read policy (op.write ++ before ++ text ++ after) =
          .ok (ofTerms policy (⟨.operand op, p⟩ :: others)) := by
  have hpieces : Text.pieces "||".toList text = [text] :=
    (Text.pieces_eq_singleton_iff (by decide)).mpr hbar
  obtain ⟨terms, hterms, rfl⟩ := exists_terms_of_read hpieces h
  obtain ⟨word, words, p, others, hwords, hp, rfl, hsingle, hop⟩ :=
    Arm.exists_readTerms_operator_append hspace htrim hne hstart hterms
  refine ⟨word, words, p, others, hwords, hp, rfl, hsingle, ?_⟩
  intro op before after hbefore hafter
  refine read_of_readTerms ?_ (hop op before after hbefore hafter)
  -- Neither the operator nor the blanks complete a mark.
  have hblank : ∀ {blanks : Text}, (∀ c ∈ blanks, isBlank c = true) →
      ∀ c ∈ blanks, c ∉ "||".toList := by
    intro blanks hblanks c hc hmem
    obtain rfl : c = '|' := by simpa using hmem
    exact absurd (hblanks '|' hc) (by decide)
  have hout : ∀ c ∈ op.write, c ∉ "||".toList := fun c hc =>
    Operator.notMem_of_mem_write (by simp [Operator.starts]) hc
  rw [Text.pieces_eq_singleton_iff (by decide), List.append_assoc, List.append_assoc,
    Text.infix_append_iff_of_disjoint hout (by decide),
    Text.infix_append_iff_of_disjoint (hblank hbefore) (by decide),
    Text.infix_append_iff_of_disjoint_right (hblank hafter) (by decide)]
  exact hbar

end Operator

/-! ### When a caret makes no difference -/

namespace PartialVersion

/-- **Whether a caret in front of a partial version makes no difference.** -/
def CaretIsExact : PartialVersion → Prop
  | wildcard => True
  | major _ => True
  | minor a b => a = 0 ∨ a = maxNumber ∧ b = maxNumber
  | full _ _ _ _ => False

instance : DecidablePred CaretIsExact
  | wildcard => inferInstanceAs (Decidable True)
  | major _ => inferInstanceAs (Decidable True)
  | minor a b => inferInstanceAs (Decidable (a = 0 ∨ a = maxNumber ∧ b = maxNumber))
  | full _ _ _ _ => inferInstanceAs (Decidable False)

variable {p : PartialVersion} {v : Version} {t : Term} {others : List Term}
  {a b c a' b' c' : Nat} {pre : List PreIdentifier}

theorem mem_ofTerms_cons_iff {policy : PrereleasePolicy} :
    v ∈ Range.ofTerms policy (t :: others) ↔
      (Arm.ofTerms policy (t :: others)).Admits policy v :=
  ⟨fun ⟨_, harm, hadmits⟩ => List.mem_singleton.mp harm ▸ hadmits,
    fun hadmits => ⟨_, List.mem_singleton_self _, hadmits⟩⟩

section Window

variable (h : t.bounds .named = [⟨.ge, start .named a b c⟩, ⟨.lt, .floor a' b' c'⟩])
include h

/-- A release belongs to a window if its numbers do. -/
theorem mem_window_iff (hv : v.pre = []) :
    v ∈ Range.ofTerms .named [t] ↔ [a, b, c] ≤ v.numbers ∧ v.numbers < [a', b', c'] := by
  rw [Range.mem_ofTerms_iff hv, List.forall_mem_singleton, h, forall_admits_pair]
  exact and_congr (Version.release_le_iff hv rfl rfl) Version.lt_floor_iff

/-- A window that ends before it starts has no members. -/
theorem notMem_of_window (hle : [a', b', c'] ≤ [a, b, c]) :
    v ∉ Range.ofTerms .named (t :: others) := by
  rw [mem_ofTerms_cons_iff]
  rintro ⟨hbounds, -⟩
  rw [Arm.ofTerms, List.flatMap_cons, h] at hbounds
  have hlower : start .named a b c ≤ v := hbounds ⟨.ge, start .named a b c⟩ (by simp)
  have hupper : v < .floor a' b' c' := hbounds ⟨.lt, .floor a' b' c'⟩ (by simp)
  exact absurd (Version.lt_floor_iff.mp (lt_of_le_of_lt hlower hupper)) (not_lt.mpr hle)

end Window

/-- **Where a caret makes no difference.** -/
theorem mem_iff_of_caretIsExact (h : p.CaretIsExact) :
    v ∈ Range.ofTerms .named (⟨.operand .eq, p⟩ :: others) ↔
      v ∈ Range.ofTerms .named (⟨.operand .caret, p⟩ :: others) := by
  cases p with
  | wildcard => rfl
  | major a => rfl
  | minor a b =>
    rcases h with rfl | ⟨rfl, rfl⟩
    · rfl
    · exact iff_of_false (notMem_of_window rfl (by decide)) (notMem_of_window rfl (by decide))
  | full a b c pre => exact h.elim

/-! ### Where it makes one -/

theorem lt_nextNumber_iff {n : Nat} (h : n ≤ maxNumber) : n < nextNumber n ↔ n < maxNumber := by
  rw [nextNumber]
  omega

/-- Without a caret the minor number stays. -/
theorem mem_exact_minor_iff {k : Nat} :
    ({ major := a, minor := k, patch := 0 } : Version) ∈
      Range.ofTerms .named [⟨.operand .eq, minor a b⟩] ↔ b ≤ k ∧ k < nextNumber b := by
  rw [mem_window_iff rfl rfl, ← not_lt]
  simp [Version.numbers, List.cons_lt_cons_iff]

/-- With a caret it may grow, as long as there is a next major number. -/
theorem mem_caret_minor_iff (ha : a ≠ 0) {k : Nat} :
    ({ major := a, minor := k, patch := 0 } : Version) ∈
      Range.ofTerms .named [⟨.operand .caret, minor a b⟩] ↔ b ≤ k ∧ a < nextNumber a := by
  obtain ⟨a, rfl⟩ := Nat.exists_eq_succ_of_ne_zero ha
  rw [mem_window_iff rfl rfl, ← not_lt]
  simp [Version.numbers, List.cons_lt_cons_iff]

/-- The upper end of a caret range is the beginning of a release. -/
theorem exists_caretLimit_eq_floor (a b c : Nat) :
    ∃ a' b' c', caretLimit a b c = .floor a' b' c' := by
  unfold caretLimit
  split <;> exact ⟨_, _, _, rfl⟩

theorem startFull_named (a b c : Nat) (pre : List PreIdentifier) :
    startFull .named a b c pre = { major := a, minor := b, patch := c, pre } := by
  unfold startFull
  split
  · next hpre => rw [hpre]; rfl
  · rfl

/-- A build of a version comes after it. -/
theorem le_build (v : Version) (hv : v.build = []) (build : List BuildIdentifier) :
    v ≤ { v with build } := by
  refine not_lt.mp fun hlt => ?_
  rw [Version.lt_iff] at hlt
  rcases hlt with hlt | ⟨-, hlt⟩
  · exact lt_irrefl _ hlt
  · rw [Version.compareSuffix, hv] at hlt
    cases build <;> simp at hlt

/-- What a caret lets in, it lets in with build metadata, too. -/
theorem mem_caret_full_build (build : List BuildIdentifier)
    (h : ({ major := a, minor := b, patch := c, pre } : Version) ∈
      Range.ofTerms .named [⟨.operand .caret, full a b c pre⟩]) :
    ({ major := a, minor := b, patch := c, pre, build } : Version) ∈
      Range.ofTerms .named [⟨.operand .caret, full a b c pre⟩] := by
  rw [mem_ofTerms_cons_iff] at h ⊢
  -- Build metadata plays no role in what an arm names.
  refine ⟨?_, h.2⟩
  obtain ⟨a', b', c', hlimit⟩ := exists_caretLimit_eq_floor a b c
  have hbounds : (Arm.ofTerms .named [⟨.operand .caret, full a b c pre⟩]).comparators =
      [⟨.ge, { major := a, minor := b, patch := c, pre }⟩, ⟨.lt, .floor a' b' c'⟩] := by
    rw [← hlimit, ← startFull_named a b c pre]
    rfl
  have hadmits := h.1
  rw [hbounds, forall_admits_pair] at hadmits
  have hnumbers : [a, b, c] < [a', b', c'] := Version.lt_floor_iff.mp hadmits.2
  rw [hbounds, forall_admits_pair]
  exact ⟨le_build _ rfl build, Version.lt_floor_iff.mpr hnumbers⟩

/-- A full version is the only member of its range, a prerelease under either policy. -/
theorem mem_exact_full_iff {policy : PrereleasePolicy} :
    v ∈ Range.ofTerms policy [⟨.operand .eq, full a b c pre⟩] ↔
      v = { major := a, minor := b, patch := c, pre } := by
  rw [mem_ofTerms_cons_iff]
  constructor
  · exact fun h => h.1 _ List.mem_cons_self
  · rintro rfl
    refine ⟨fun bound hbound => ?_, fun hpre _ => ⟨_, List.mem_cons_self, hpre, rfl⟩⟩
    obtain rfl := List.mem_singleton.mp hbound
    rfl

/-- **Where a caret makes a difference**, there is a version that shows it. -/
theorem exists_not_mem_iff (hp : ∀ n ∈ p.components, n ≤ maxNumber) (h : ¬ p.CaretIsExact) :
    ∃ v : Version, (∀ n ∈ v.numbers, n ≤ maxNumber) ∧
      ¬ (v ∈ Range.ofTerms .named [⟨.operand .eq, p⟩] ↔
        v ∈ Range.ofTerms .named [⟨.operand .caret, p⟩]) := by
  cases p with
  | wildcard => exact absurd trivial h
  | major a => exact absurd trivial h
  | minor a b =>
    obtain ⟨ha, hmax⟩ := not_or.mp h
    simp only [components, List.forall_mem_cons] at hp
    obtain ⟨hpa, hpb, -⟩ := hp
    by_cases hboth : a < maxNumber ∧ b < maxNumber
    · -- The next minor number.
      refine ⟨{ major := a, minor := b + 1, patch := 0 }, ?_, ?_⟩
      · simp only [Version.numbers, List.forall_mem_cons]
        exact ⟨hpa, hboth.2, Nat.zero_le _, by simp⟩
      · rw [mem_exact_minor_iff, mem_caret_minor_iff ha, nextNumber_of_lt hboth.1,
          nextNumber_of_lt hboth.2]
        omega
    · -- Only one of the upper bounds lies behind the lower one.
      refine ⟨{ major := a, minor := b, patch := 0 }, ?_, ?_⟩
      · simp only [Version.numbers, List.forall_mem_cons]
        exact ⟨hpa, hpb, Nat.zero_le _, by simp⟩
      · rw [mem_exact_minor_iff, mem_caret_minor_iff ha, lt_nextNumber_iff hpa,
          lt_nextNumber_iff hpb]
        omega
  | full a b c pre =>
    simp only [components] at hp
    by_cases hmem : ({ major := a, minor := b, patch := c, pre } : Version) ∈
        Range.ofTerms .named [⟨.operand .caret, full a b c pre⟩]
    · -- A build of the version.
      refine ⟨{ major := a, minor := b, patch := c, pre, build := [⟨['0'], by decide⟩] }, hp, ?_⟩
      rw [iff_true_right (mem_caret_full_build _ hmem), mem_exact_full_iff]
      simp
    · exact ⟨{ major := a, minor := b, patch := c, pre }, hp, fun hiff =>
        hmem (hiff.mp (mem_exact_full_iff.mpr rfl))⟩

end PartialVersion

end JuliaReleases
