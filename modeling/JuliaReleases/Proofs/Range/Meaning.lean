import JuliaReleases.Proofs.Range.Term
import JuliaReleases.Proofs.Version.Order

/-!
# What the operators mean for releases

The bounds of an operator are given by one definition for each operator, with a case for each number
of numbers that may be given. This file shows that together they amount to a **uniform** reading,
`JuliaReleases.Operator.Meaning`: a release is compared with a partial version by its first numbers
only, as many as are given, and `~` and `^` ask for agreement in some of them besides.

The bridge is a fact on lists. A lower bound that is padded with zeros bounds the prefix in front of
the zeros (`JuliaReleases.lt_append_zeros_iff`), and a prefix comes before another one with its last
number raised by one if it does not come behind that other one
(`JuliaReleases.lt_concat_succ_iff`). The bounds themselves are prereleases or releases, but to a
full release only their numbers matter. So `JuliaReleases.PartialVersion.bounds_iff` goes through
the operators one by one, and `JuliaReleases.mem_range_iff_meaning` states the result for the texts
that such ranges are read from.
-/

namespace JuliaReleases

/-! ### Lists of numbers and their prefixes -/

section Prefix

variable {x l : List Nat} {m n : Nat}

/-- Zeros are the least list of their length. -/
theorem not_lt_replicate_zero : ¬ x < List.replicate x.length 0 := by
  induction x with
  | nil => exact lt_irrefl _
  | cons a x ih =>
    rw [List.length_cons, List.replicate_succ, List.cons_lt_cons_iff]
    rintro (ha | ⟨-, hx⟩)
    · exact Nat.not_lt_zero a ha
    · exact ih hx

/-- **Padding with zeros**: what comes before the padded list has a prefix before the list. -/
theorem lt_append_zeros_iff (h : x.length = l.length + m) :
    x < l ++ List.replicate m 0 ↔ x.take l.length < l := by
  induction l generalizing x with
  | nil =>
    obtain rfl : x.length = m := by rw [h, List.length_nil, Nat.zero_add]
    exact iff_of_false not_lt_replicate_zero (lt_irrefl _)
  | cons a l ih =>
    cases x with
    | nil => rw [List.length_nil, List.length_cons] at h; omega
    | cons b x =>
      have hx : x.length = l.length + m := by simp only [List.length_cons] at h; omega
      rw [List.cons_append, List.length_cons, List.take_succ_cons, List.cons_lt_cons_iff,
        List.cons_lt_cons_iff, ih hx]

/-- **Raising the last number**: among lists of one length, nothing lies between. -/
theorem lt_concat_succ_iff (h : x.length = l.length + 1) : x < l ++ [n + 1] ↔ x ≤ l ++ [n] := by
  rw [le_iff_lt_or_eq]
  induction l generalizing x with
  | nil =>
    obtain ⟨a, rfl⟩ := List.length_eq_one_iff.mp h
    simp only [List.nil_append, List.cons_lt_cons_iff, List.cons.injEq, lt_irrefl, and_true,
      and_false, or_false]
    omega
  | cons b l ih =>
    cases x with
    | nil => simp at h
    | cons a x =>
      have hx : x.length = l.length + 1 := by simpa using h
      rw [List.cons_append, List.cons_append, List.cons_lt_cons_iff, List.cons_lt_cons_iff,
        List.cons.injEq, ih hx]
      tauto

/-- What does not come before a list has a prefix that does not come before the prefix of it. -/
theorem le_take_of_append_le {rest : List Nat} (h : l ++ rest ≤ x) : l ≤ x.take l.length := by
  contrapose! h
  induction l generalizing x with
  | nil => exact absurd h (lt_irrefl _)
  | cons a l ih =>
    cases x with
    | nil => exact List.nil_lt_cons a (l ++ rest)
    | cons b x =>
      rw [List.length_cons, List.take_succ_cons, List.cons_lt_cons_iff] at h
      rw [List.cons_append, List.cons_lt_cons_iff]
      exact h.imp_right fun h => ⟨h.1, ih h.2⟩

end Prefix

/-! ### The uniform reading -/

namespace PartialVersion

/-- The least release that starts with the numbers given: zeros stand in for the others. -/
def first (p : PartialVersion) : Version where
  major := p.components.getD 0 0
  minor := p.components.getD 1 0
  patch := p.components.getD 2 0

/-- Whether a version agrees with the first `k` of the numbers given, or with all of them if there
are fewer. -/
def Agrees (p : PartialVersion) (k : Nat) (v : Version) : Prop :=
  v.numbers.take (min k p.components.length) = p.components.take k

/-- How many of the numbers `^` fixes: the leading zeros and the number behind them. -/
def significant (p : PartialVersion) : Nat :=
  (p.components.takeWhile (· = 0)).length + 1

end PartialVersion

/-- **What an operator in front of a partial version means for a release.** It is compared by as
many numbers as are given. -/
def Operator.Meaning (op : Operator) (p : PartialVersion) (v : Version) : Prop :=
  let numbers := v.numbers.take p.components.length
  match op with
  | .eq => numbers = p.components
  | .lt => numbers < p.components
  | .le => numbers ≤ p.components
  | .gt => p.components < numbers
  | .ge => p.components ≤ numbers
  | .tilde => p.first ≤ v ∧ p.Agrees 2 v
  | .caret => p.first ≤ v ∧ p.Agrees p.significant v

/-! ### Single bounds -/

/-- Full releases are equal if their numbers are. -/
theorem Version.release_eq_iff {v : Version} {a b c : Nat} (hv : v.pre = []) (hb : v.build = []) :
    v = { major := a, minor := b, patch := c } ↔ v.numbers = [a, b, c] := by
  obtain ⟨i, j, k, pre, build⟩ := v
  obtain rfl : pre = [] := hv
  obtain rfl : build = [] := hb
  simp [Version.numbers]

namespace PrereleasePolicy

/-- Whether only the bounds of a range matter to a version: it is a full release, or prereleases are
included. -/
def GoesByBounds (policy : PrereleasePolicy) (v : Version) : Prop :=
  v.IsPrerelease → policy = .included

variable {policy : PrereleasePolicy} {v : Version}

theorem GoesByBounds.of_release (hv : v.pre = []) : policy.GoesByBounds v := fun h =>
  absurd hv h

theorem GoesByBounds.pre_eq_nil (h : policy.GoesByBounds v) (hpolicy : policy = .named) :
    v.pre = [] := by
  by_contra hv
  exact absurd (hpolicy.symm.trans (h hv)) (by decide)

end PrereleasePolicy

namespace PartialVersion

variable {policy : PrereleasePolicy} {v : Version} {a b c m n : Nat}

/-- Where only the bounds matter, a lower bound starts where its release does. -/
theorem start_le_iff_of_goesByBounds (hv : policy.GoesByBounds v) :
    start policy a b c ≤ v ↔ ¬ v < Version.floor a b c := by
  rw [Version.lt_floor_iff, not_lt]
  cases policy with
  | named => exact Version.release_le_iff (hv.pre_eq_nil rfl) rfl rfl
  | included => exact Version.floor_le_iff

/-- A full release does not see where a lower bound starts within its own release. -/
theorem start_le_iff (hv : v.pre = []) :
    start policy a b c ≤ v ↔ ¬ v < Version.floor a b c :=
  start_le_iff_of_goesByBounds (.of_release hv)

/-- An upper bound that ends in zeros compares the numbers in front of them. -/
theorem lt_floor_iff_take (l : List Nat) (h : [a, b, c] = l ++ List.replicate m 0) :
    v < Version.floor a b c ↔ v.numbers.take l.length < l := by
  have hlength : v.numbers.length = l.length + m := by
    simpa [Version.length_numbers] using congrArg List.length h
  rw [Version.lt_floor_iff, h, lt_append_zeros_iff hlength]

/-- An upper bound that was raised by one compares the numbers up to the raised one. -/
theorem lt_floor_succ_iff (l : List Nat)
    (h : [a, b, c] = l ++ (n + 1) :: List.replicate m 0) :
    v < Version.floor a b c ↔ v.numbers.take (l.length + 1) ≤ l ++ [n] := by
  have hlength : (v.numbers.take (l.length + 1)).length = l.length + 1 := by
    have hlength : 3 = l.length + (m + 1) := by simpa using congrArg List.length h
    rw [List.length_take, Version.length_numbers]
    omega
  rw [lt_floor_iff_take (l ++ [n + 1]) (by simpa using h), List.length_append,
    List.length_singleton, lt_concat_succ_iff hlength]

theorem start_le_iff_take (hv : v.pre = []) (l : List Nat)
    (h : [a, b, c] = l ++ List.replicate m 0) :
    start policy a b c ≤ v ↔ l ≤ v.numbers.take l.length := by
  rw [start_le_iff hv, lt_floor_iff_take l h, not_lt]

theorem start_succ_le_iff (hv : v.pre = []) (l : List Nat)
    (h : [a, b, c] = l ++ (n + 1) :: List.replicate m 0) :
    start policy a b c ≤ v ↔ l ++ [n] < v.numbers.take (l.length + 1) := by
  rw [start_le_iff hv, lt_floor_succ_iff l h, not_le]

/-- **A window**: from a release on, as long as its numbers up to a certain one stay. -/
theorem window_iff (hv : v.pre = []) {a' b' c' : Nat} {rest : List Nat} (l : List Nat)
    (hlower : [a, b, c] = l ++ n :: rest)
    (hupper : [a', b', c'] = l ++ (n + 1) :: List.replicate m 0) :
    (start policy a b c ≤ v ∧ v < Version.floor a' b' c') ↔
      ({ major := a, minor := b, patch := c } : Version) ≤ v ∧
        v.numbers.take (l.length + 1) = l ++ [n] := by
  rw [start_le_iff hv, lt_floor_succ_iff l hupper, Version.release_le_iff hv rfl rfl,
    Version.lt_floor_iff, not_lt]
  refine and_congr_right fun hle => ?_
  -- The lower bound keeps the prefix from below, so the upper bound leaves one prefix only.
  have hprefix : l ++ [n] ≤ v.numbers.take (l.length + 1) := by
    rw [hlower, List.append_cons] at hle
    have htake := le_take_of_append_le hle
    rwa [List.length_append] at htake
  exact ⟨fun h => le_antisymm h hprefix, le_of_eq⟩

/-- A window that starts in zeros is agreement alone. -/
theorem interval_iff (hv : v.pre = []) {a' b' c' : Nat} (l : List Nat)
    (hlower : [a, b, c] = l ++ n :: List.replicate m 0)
    (hupper : [a', b', c'] = l ++ (n + 1) :: List.replicate m 0) :
    (start policy a b c ≤ v ∧ v < Version.floor a' b' c') ↔
      v.numbers.take (l.length + 1) = l ++ [n] := by
  rw [start_le_iff hv, lt_floor_iff_take (l ++ [n]) (by simpa using hlower),
    lt_floor_succ_iff l hupper, not_lt, List.length_append, List.length_singleton]
  exact ⟨fun h => le_antisymm h.2 h.1, fun h => ⟨ge_of_eq h, le_of_eq h⟩⟩

/-! ### The bounds of an operator -/

theorem forall_admits_pair {bound bound' : Comparator} :
    (∀ c ∈ [bound, bound'], c.Admits v) ↔ bound.Admits v ∧ bound'.Admits v := by
  rw [List.forall_mem_cons, List.forall_mem_singleton]

theorem nextNumber_of_lt (h : n < maxNumber) : nextNumber n = n + 1 :=
  Nat.min_eq_left h

/-- The numbers given are all fixed if there are no more of them. -/
theorem agrees_iff {p : PartialVersion} {k : Nat} (h : p.components.length ≤ k) :
    p.Agrees k v ↔ v.numbers.take p.components.length = p.components := by
  rw [Agrees, min_eq_right h, List.take_of_length_le h]

theorem first_wildcard_le (hv : v.pre = []) : wildcard.first ≤ v := by
  rw [Version.release_le_iff hv rfl rfl]
  exact not_lt.mp not_lt_replicate_zero

section Operators

variable {p : PartialVersion} (hv : v.pre = []) (hpre : p.pre = [])
include hv hpre

theorem lowerEnd_iff :
    (∀ bound ∈ p.lowerEnd policy, bound.Admits v) ↔ Operator.ge.Meaning p v := by
  cases p with
  | wildcard => exact iff_of_true (by simp [lowerEnd]) le_rfl
  | major a =>
    rw [lowerEnd, List.forall_mem_singleton]
    exact start_le_iff_take hv [a] (m := 2) rfl
  | minor a b =>
    rw [lowerEnd, List.forall_mem_singleton]
    exact start_le_iff_take hv [a, b] (m := 1) rfl
  | full a b c pre =>
    obtain rfl : pre = [] := hpre
    rw [lowerEnd, List.forall_mem_singleton]
    exact start_le_iff_take hv [a, b, c] (m := 0) rfl

theorem atLeast_iff : (∀ bound ∈ p.atLeast policy, bound.Admits v) ↔ Operator.ge.Meaning p v := by
  cases p with
  | wildcard | major a | minor a b => exact @lowerEnd_iff policy v _ hv hpre
  | full a b c pre =>
    obtain rfl : pre = [] := hpre
    rw [atLeast, List.forall_mem_singleton]
    exact Version.release_le_iff hv rfl rfl

theorem lessThan_iff : (∀ bound ∈ p.lessThan, bound.Admits v) ↔ Operator.lt.Meaning p v := by
  cases p with
  | wildcard =>
    rw [lessThan, nothing, List.forall_mem_singleton]
    exact lt_floor_iff_take [] (m := 3) rfl
  | major a =>
    rw [lessThan, List.forall_mem_singleton]
    exact lt_floor_iff_take [a] (m := 2) rfl
  | minor a b =>
    rw [lessThan, List.forall_mem_singleton]
    exact lt_floor_iff_take [a, b] (m := 1) rfl
  | full a b c pre =>
    obtain rfl : pre = [] := hpre
    rw [lessThan, List.forall_mem_singleton]
    exact le_iff_le_iff_lt_iff_lt.mp (Version.release_le_iff hv rfl rfl)

-- The other operators step to the next number somewhere, so there has to be one.
variable (hp : ∀ n ∈ p.components, n < maxNumber)
include hp

theorem atMost_iff (hb : v.build = []) :
    (∀ bound ∈ p.atMost, bound.Admits v) ↔ Operator.le.Meaning p v := by
  cases p with
  | wildcard => exact iff_of_true (by simp [atMost]) le_rfl
  | major a =>
    rw [atMost, nextNumber_of_lt (hp a (by simp [components])), List.forall_mem_singleton]
    exact lt_floor_succ_iff [] (m := 2) rfl
  | minor a b =>
    rw [atMost, nextNumber_of_lt (hp b (by simp [components])), List.forall_mem_singleton]
    exact lt_floor_succ_iff [a] (m := 1) rfl
  | full a b c pre =>
    obtain rfl : pre = [] := hpre
    rw [atMost, List.forall_mem_singleton]
    exact Version.release_le_iff rfl hv hb

theorem greaterThan_iff (hb : v.build = []) :
    (∀ bound ∈ p.greaterThan policy, bound.Admits v) ↔ Operator.gt.Meaning p v := by
  cases p with
  | wildcard =>
    rw [greaterThan, nothing, List.forall_mem_singleton]
    exact lt_floor_iff_take [] (m := 3) rfl
  | major a =>
    rw [greaterThan, nextNumber_of_lt (hp a (by simp [components])), List.forall_mem_singleton]
    exact start_succ_le_iff hv [] (m := 2) rfl
  | minor a b =>
    rw [greaterThan, nextNumber_of_lt (hp b (by simp [components])), List.forall_mem_singleton]
    exact start_succ_le_iff hv [a] (m := 1) rfl
  | full a b c pre =>
    obtain rfl : pre = [] := hpre
    rw [greaterThan, List.forall_mem_singleton]
    exact le_iff_le_iff_lt_iff_lt.mp (Version.release_le_iff rfl hv hb)

theorem exact_iff (hb : v.build = []) :
    (∀ bound ∈ p.exact policy, bound.Admits v) ↔ Operator.eq.Meaning p v := by
  cases p with
  | wildcard => simp [exact, Operator.Meaning, components]
  | major a =>
    rw [exact, nextNumber_of_lt (hp a (by simp [components])), forall_admits_pair]
    exact interval_iff hv [] (m := 2) rfl rfl
  | minor a b =>
    rw [exact, nextNumber_of_lt (hp b (by simp [components])), forall_admits_pair]
    exact interval_iff hv [a] (m := 1) rfl rfl
  | full a b c pre =>
    obtain rfl : pre = [] := hpre
    rw [exact, List.forall_mem_singleton]
    exact Version.release_eq_iff hv hb

theorem tilde_iff : (∀ bound ∈ p.tilde policy, bound.Admits v) ↔ Operator.tilde.Meaning p v := by
  cases p with
  | wildcard =>
    refine iff_of_true (by simp [tilde, exact]) ⟨first_wildcard_le hv, rfl⟩
  | major a =>
    rw [tilde, exact, nextNumber_of_lt (hp a (by simp [components])), forall_admits_pair]
    · exact window_iff hv [] (m := 2) rfl rfl
    · simp
  | minor a b =>
    rw [tilde, exact, nextNumber_of_lt (hp b (by simp [components])), forall_admits_pair]
    · exact window_iff hv [a] (m := 1) rfl rfl
    · simp
  | full a b c pre =>
    obtain rfl : pre = [] := hpre
    rw [tilde, nextNumber_of_lt (hp b (by simp [components])), forall_admits_pair]
    exact window_iff hv [a] (m := 1) rfl rfl

/-- The cases are those of the first number that is not zero. If it is the last one, or if all are
zero, then all numbers given are fixed. -/
theorem caret_iff : (∀ bound ∈ p.caret policy, bound.Admits v) ↔ Operator.caret.Meaning p v := by
  cases p with
  | wildcard => exact iff_of_true (by simp [caret]) ⟨first_wildcard_le hv, rfl⟩
  | major a =>
    rw [caret, exact, nextNumber_of_lt (hp a (by simp [components])), forall_admits_pair,
      Operator.Meaning, agrees_iff (by simp [components, significant])]
    exact window_iff hv [] (m := 2) rfl rfl
  | minor a b =>
    rcases a with _ | a
    · rw [caret, exact, nextNumber_of_lt (hp b (by simp [components])), forall_admits_pair,
        Operator.Meaning, agrees_iff (by simp [components, significant])]
      exact window_iff hv [0] (m := 1) rfl rfl
    · rw [caret, nextNumber_of_lt (hp (a + 1) (by simp [components])), forall_admits_pair]
      · show (start policy (a + 1) b 0 ≤ v ∧ v < .floor (a + 2) 0 0) ↔
          (minor (a + 1) b).first ≤ v ∧ v.numbers.take 1 = [a + 1]
        exact window_iff hv [] (m := 2) rfl rfl
      · simp
  | full a b c pre =>
    obtain rfl : pre = [] := hpre
    rw [caret, forall_admits_pair]
    rcases a with _ | a
    · rcases b with _ | b
      · rw [caretLimit, nextNumber_of_lt (hp c (by simp [components])), Operator.Meaning,
          agrees_iff (by simp [components, significant])]
        show (start policy 0 0 c ≤ v ∧ v < .floor 0 0 (c + 1)) ↔
          (full 0 0 c []).first ≤ v ∧ v.numbers.take 3 = [0, 0, c]
        exact window_iff hv [0, 0] (m := 0) rfl rfl
      · rw [caretLimit, nextNumber_of_lt (hp (b + 1) (by simp [components]))]
        · show (start policy 0 (b + 1) c ≤ v ∧ v < .floor 0 (b + 2) 0) ↔
            (full 0 (b + 1) c []).first ≤ v ∧ v.numbers.take 2 = [0, b + 1]
          exact window_iff hv [0] (m := 1) rfl rfl
        · simp
    · rw [caretLimit, nextNumber_of_lt (hp (a + 1) (by simp [components]))]
      · show (start policy (a + 1) b c ≤ v ∧ v < .floor (a + 2) 0 0) ↔
          (full (a + 1) b c []).first ≤ v ∧ v.numbers.take 1 = [a + 1]
        exact window_iff hv [] (m := 2) rfl rfl
      · simp
      · simp

/-- **The bounds of an operator have the uniform meaning.** -/
theorem bounds_iff (hb : v.build = []) (op : Operator) :
    (∀ bound ∈ p.bounds policy op, bound.Admits v) ↔ op.Meaning p v := by
  cases op with
  | ge => exact atLeast_iff hv hpre
  | le => exact atMost_iff hv hpre hp hb
  | gt => exact greaterThan_iff hv hpre hp hb
  | lt => exact lessThan_iff hv hpre
  | eq => exact exact_iff hv hpre hp hb
  | caret => exact caret_iff hv hpre hp
  | tilde => exact tilde_iff hv hpre hp

end Operators

end PartialVersion

/-! ### Ranges of a single arm -/

namespace Range

/-- A word of a range: it has no blanks, and it is not cut into arms. -/
structure IsToken (text : Text) : Prop where
  isWord : Text.IsWord text
  pieces : Text.pieces "||".toList text = [text]

variable {policy : PrereleasePolicy} {text : Text} {v : Version}

/-- The range of a single arm. -/
def ofTerms (policy : PrereleasePolicy) (terms : List Term) : Range where
  arms := [Arm.ofTerms policy terms]
  policy := policy

theorem mem_ofTerms_iff_of_goesByBounds {terms : List Term} (hv : policy.GoesByBounds v) :
    v ∈ ofTerms policy terms ↔ ∀ t ∈ terms, ∀ bound ∈ t.bounds policy, bound.Admits v := by
  constructor
  · rintro ⟨arm, harm, hadmits, -⟩ t ht bound hbound
    obtain rfl : arm = Arm.ofTerms policy terms := List.mem_singleton.mp harm
    exact hadmits bound (List.mem_flatMap.mpr ⟨t, ht, hbound⟩)
  · -- The version needs no name, so the bounds are all there is to meet.
    intro h
    refine ⟨Arm.ofTerms policy terms, List.mem_singleton_self _, fun bound hbound => ?_, ?_⟩
    · obtain ⟨t, ht, hmem⟩ := List.mem_flatMap.mp hbound
      exact h t ht bound hmem
    · exact fun hprerelease hnamed => absurd (hv.pre_eq_nil hnamed) hprerelease

theorem mem_ofTerms_iff {terms : List Term} (hv : v.pre = []) :
    v ∈ ofTerms policy terms ↔ ∀ t ∈ terms, ∀ bound ∈ t.bounds policy, bound.Admits v :=
  mem_ofTerms_iff_of_goesByBounds (.of_release hv)

theorem read_of_readTerms {terms : List Term} (hpieces : Text.pieces "||".toList text = [text])
    (h : Arm.readTerms text = .ok terms) : Range.read policy text = .ok (ofTerms policy terms) := by
  have hread : readTerms text = .ok [terms] := by
    rw [readTerms, hpieces, mapM_eq_ok_iff, List.map_singleton, List.map_singleton, h]
  rw [Range.read_eq, hread]
  rfl

/-- A range that is not cut into arms comes from the terms of an arm. -/
theorem exists_terms_of_read {r : Range} (hpieces : Text.pieces "||".toList text = [text])
    (h : Range.read policy text = .ok r) :
    ∃ terms, Arm.readTerms text = .ok terms ∧ r = ofTerms policy terms := by
  obtain ⟨arm, harm, rfl⟩ := exists_arm_of_read hpieces h
  rw [Arm.read_eq] at harm
  obtain ⟨terms, hterms, rfl⟩ := map_eq_ok_iff.mp harm
  exact ⟨terms, hterms, rfl⟩

/-- A range of one word. -/
theorem read_token {t : Term} (htext : IsToken text) (hoperator : Operator.read? text = none)
    (h : Term.read text = .ok t) : Range.read policy text = .ok (ofTerms policy [t]) := by
  have hpieces : Text.pieces " - ".toList text = [text] :=
    Text.pieces_of_not_mem (by decide) (Text.space_notMem_of_isWord htext.isWord)
  have hwords : Text.words text = [text] := Text.words_of_isWord htext.isWord
  refine read_of_readTerms htext.pieces ?_
  rw [Arm.readTerms_eq_mapM (Text.trim_of_isWord htext.isWord) hpieces (by simpa [hwords]),
    hwords, mapM_eq_ok_iff, List.map_singleton, List.map_singleton, h]

/-- In a range of one word, a version is behind the operator. -/
theorem IsToken.exists_read_operand {r : Range} (htext : IsToken text)
    (h : Range.read policy text = .ok r) :
    ∃ p, PartialVersion.read (Operator.operand text) = .ok p := by
  obtain ⟨arm, harm, -⟩ := exists_arm_of_read htext.pieces h
  obtain ⟨t, ht, -⟩ := Arm.exists_term_of_read htext.isWord harm
  exact ⟨_, (Term.read_eq_ok ht).2⟩

/-- An operator in front of a word makes a word. -/
theorem IsToken.operator_append (h : IsToken text) (op : Operator) :
    IsToken (op.write ++ text) := by
  refine ⟨⟨fun hnil => ?_, fun c hc => ?_⟩, ?_⟩
  · exact Operator.write_ne_nil op (List.append_eq_nil_iff.mp hnil).1
  · rcases List.mem_append.mp hc with hc | hc
    · exact Operator.isBlank_eq_false_of_mem_starts (Operator.mem_starts_of_mem_write hc)
    · exact h.isWord.2 c hc
  · have hbar : '|' ∉ op.write := fun hmem =>
      absurd (Operator.mem_starts_of_mem_write hmem) (by decide)
    show Text.pieces ('|' :: ['|']) _ = _
    rw [Text.pieces_append_of_not_mem hbar]
    exact congrArg (List.modifyHead (op.write ++ ·)) h.pieces

section Hyphen

variable {first last : Text} {p q : PartialVersion}

/-- A hyphen range is not cut into arms. -/
theorem pieces_hyphen (hfirst : IsToken first) (hlast : IsToken last) :
    Text.pieces "||".toList (first ++ " - ".toList ++ last) = [first ++ " - ".toList ++ last] := by
  -- The blank behind the first end keeps a bar at its end apart from what follows.
  have hhyphen : Text.pieces "||".toList (['-', ' '] ++ last) = [['-', ' '] ++ last] := by
    show Text.pieces ('|' :: ['|']) _ = _
    rw [Text.pieces_append_of_not_mem (by decide)]
    exact congrArg (List.modifyHead (['-', ' '] ++ ·)) hlast.pieces
  have happend : first ++ " - ".toList ++ last = first ++ ' ' :: (['-', ' '] ++ last) := by simp
  rw [happend, Text.pieces_append_cons (by decide) (by decide) hfirst.pieces, hhyphen]
  rfl

/-- The ends of a hyphen range are its versions. -/
theorem readTerms_hyphen_eq_ok_iff {terms : List Term} (hfirst : Text.IsWord first)
    (hlast : Text.IsWord last) : Arm.readTerms (first ++ " - ".toList ++ last) = .ok terms ↔
      ∃ p q, PartialVersion.read first = .ok p ∧ PartialVersion.read last = .ok q ∧
        terms = [⟨.lowerEnd, p⟩, ⟨.operand .le, q⟩] := by
  have hends : Text.pieces " - ".toList (Text.trim (first ++ " - ".toList ++ last)) =
      [first, last] := by
    rw [(Text.isSpaced_hyphen hfirst hlast).trim_eq]
    exact Text.pieces_pair (Text.space_notMem_of_isWord hfirst)
      (Text.space_notMem_of_isWord hlast)
  simpa only [Text.trim_of_isWord hfirst, Text.trim_of_isWord hlast] using
    Arm.readTerms_ends_eq_ok_iff hends

end Hyphen

namespace IsToken

variable {last : Text} {p q : PartialVersion} (htext : IsToken text)
  (hp : PartialVersion.read text = .ok p)
include htext hp

theorem read_bare : Range.read policy text = .ok (ofTerms policy [⟨.operand .eq, p⟩]) :=
  read_token htext (PartialVersion.read?_of_read hp) (Term.read_of_read hp)

theorem read_operator (op : Operator) :
    Range.read policy (op.write ++ text) = .ok (ofTerms policy [⟨.operand op, p⟩]) :=
  read_token (htext.operator_append op) (PartialVersion.read?_append_of_read hp op)
    (Term.read_append_of_read hp op)

theorem read_hyphen (hlast : IsToken last) (hq : PartialVersion.read last = .ok q) :
    Range.read policy (text ++ " - ".toList ++ last) =
      .ok (ofTerms policy [⟨.lowerEnd, p⟩, ⟨.operand .le, q⟩]) :=
  read_of_readTerms (pieces_hyphen htext hlast)
    ((readTerms_hyphen_eq_ok_iff htext.isWord hlast.isWord).mpr ⟨_, _, hp, hq, rfl⟩)

end IsToken

/-- **A word for a partial version without prerelease**, of which every number has a successor that
can be written. -/
structure ReleaseWord (text : Text) (p : PartialVersion) : Prop where
  token : IsToken text
  read : PartialVersion.read text = .ok p
  pre : p.pre = []
  numbers : ∀ n ∈ p.components, n < maxNumber

namespace ReleaseWord

variable {p q : PartialVersion} (h : ReleaseWord text p)
include h

theorem read_bare : Range.read policy text = .ok (ofTerms policy [⟨.operand .eq, p⟩]) :=
  h.token.read_bare h.read

theorem read_operator (op : Operator) :
    Range.read policy (op.write ++ text) = .ok (ofTerms policy [⟨.operand op, p⟩]) :=
  h.token.read_operator h.read op

theorem read_hyphen {last : Text} (hlast : ReleaseWord last q) :
    Range.read policy (text ++ " - ".toList ++ last) =
      .ok (ofTerms policy [⟨.lowerEnd, p⟩, ⟨.operand .le, q⟩]) :=
  h.token.read_hyphen h.read hlast.token hlast.read

theorem mem_operand_iff (hv : v.pre = []) (hb : v.build = []) (op : Operator) :
    v ∈ ofTerms policy [⟨.operand op, p⟩] ↔ op.Meaning p v := by
  rw [mem_ofTerms_iff hv, List.forall_mem_singleton]
  exact PartialVersion.bounds_iff hv h.pre h.numbers hb op

theorem mem_hyphen_iff (hv : v.pre = []) (hb : v.build = []) {last : Text}
    (hlast : ReleaseWord last q) : v ∈ ofTerms policy [⟨.lowerEnd, p⟩, ⟨.operand .le, q⟩] ↔
      Operator.ge.Meaning p v ∧ Operator.le.Meaning q v := by
  rw [mem_ofTerms_iff hv, List.forall_mem_cons, List.forall_mem_singleton]
  exact and_congr (PartialVersion.lowerEnd_iff hv h.pre)
    (PartialVersion.atMost_iff hv hlast.pre hlast.numbers hb)

end ReleaseWord

end Range

open Range in
/-- **The meaning of the operators for releases**, whatever the policy on prereleases: a partial
version, bare or behind an operator, has the uniform meaning, and a hyphen range is the conjunction
of `>=` and `<=`. -/
theorem mem_range_iff_meaning (policy : PrereleasePolicy) {v : Version} (hv : v.pre = [])
    (hb : v.build = []) :
    (∀ text p, ReleaseWord text p →
      ∃ r, Range.read policy text = .ok r ∧ (v ∈ r ↔ Operator.eq.Meaning p v)) ∧
    (∀ text p (op : Operator), ReleaseWord text p →
      ∃ r, Range.read policy (op.write ++ text) = .ok r ∧ (v ∈ r ↔ op.Meaning p v)) ∧
    (∀ first last p q, ReleaseWord first p → ReleaseWord last q →
      ∃ r lower upper, Range.read policy (first ++ " - ".toList ++ last) = .ok r ∧
        Range.read policy (Operator.ge.write ++ first) = .ok lower ∧
        Range.read policy (Operator.le.write ++ last) = .ok upper ∧
        (v ∈ r ↔ v ∈ lower ∧ v ∈ upper)) := by
  refine ⟨fun text p h => ?_, fun text p op h => ?_, fun first last p q hfirst hlast => ?_⟩
  · exact ⟨_, h.read_bare, h.mem_operand_iff hv hb .eq⟩
  · exact ⟨_, h.read_operator op, h.mem_operand_iff hv hb op⟩
  · refine ⟨_, _, _, hfirst.read_hyphen hlast, hfirst.read_operator .ge,
      hlast.read_operator .le, ?_⟩
    rw [hfirst.mem_hyphen_iff hv hb hlast, hfirst.mem_operand_iff hv hb .ge,
      hlast.mem_operand_iff hv hb .le]

open Range in
/-- The operator `^` in front of `0.2` and the hyphen range `0.2 - 1`, for `0.2.7`. -/
theorem mem_range_iff_meaning_caret :
    (∃ r, Range.read .included "^0.2".toList = .ok r ∧
      (({ major := 0, minor := 2, patch := 7 } : Version) ∈ r ↔
        Operator.caret.Meaning (.minor 0 2) { major := 0, minor := 2, patch := 7 })) ∧
    ∃ r lower upper, Range.read .included "0.2 - 1".toList = .ok r ∧
      Range.read .included ">=0.2".toList = .ok lower ∧
      Range.read .included "<=1".toList = .ok upper ∧
      (({ major := 0, minor := 2, patch := 7 } : Version) ∈ r ↔
        { major := 0, minor := 2, patch := 7 } ∈ lower ∧
          { major := 0, minor := 2, patch := 7 } ∈ upper) := by
  have hfirst : ReleaseWord "0.2".toList (.minor 0 2) :=
    ⟨⟨by decide, rfl⟩, rfl, rfl, by decide⟩
  have hlast : ReleaseWord "1".toList (.major 1) :=
    ⟨⟨by decide, rfl⟩, rfl, rfl, by decide⟩
  exact ⟨(mem_range_iff_meaning .included rfl rfl).2.1 "0.2".toList _ .caret hfirst,
    (mem_range_iff_meaning .included rfl rfl).2.2 "0.2".toList "1".toList _ _ hfirst hlast⟩

end JuliaReleases
