import JuliaReleases.Proofs.Range.PartialVersion

/-!
# The terms of an arm

Reading an arm does two things at once: it takes the text apart, and it turns every partial version
found there into bounds. Only the second depends on the policy on prereleases. This file separates
the two.

* A `JuliaReleases.Term` is a partial version with the role that it plays, and
  `JuliaReleases.Arm.readTerms` reads the terms of an arm. By `JuliaReleases.Arm.read_eq` and
  `JuliaReleases.Range.read_eq`, reading a range is reading terms and then bounding them.
* `JuliaReleases.Term.bound_of_mem_bounds` is the one case analysis of all operators: a bound is
  a version as it is written, a derived lower bound or a derived upper bound.
* `JuliaReleases.Arm.map_read_versionTexts` says where the terms come from: their versions are the
  ones written in the arm, in order, whatever blanks stand between an operator and its version.
-/

namespace JuliaReleases

/-! ### Terms -/

/-- What a partial version stands for in an arm. -/
inductive Role where
  /-- It stands behind an operator, or behind none, which means `=`. The upper end of a hyphen
  range has the role of `<=`. -/
  | operand (op : Operator)
  /-- It is the lower end of a hyphen range. -/
  | lowerEnd

/-- A partial version and its role. -/
structure Term where
  role : Role
  version : PartialVersion

namespace Term

/-- The bounds that a term stands for. -/
def bounds (policy : PrereleasePolicy) (t : Term) : List Comparator :=
  match t.role with
  | .operand op => t.version.bounds policy op
  | .lowerEnd => t.version.lowerEnd policy

/-- Reads a partial version behind at most one operator. -/
def read (token : Text) : Except RangeFault Term :=
  match Operator.split token with
  | (none, version) => mk (.operand .eq) <$> PartialVersion.read version
  | (some op, version) =>
    if (Operator.split version).1.isSome then .error (.repeatedOperator token)
    else mk (.operand op) <$> PartialVersion.read version

section Read

variable {text : Text} {p : PartialVersion} (h : PartialVersion.read text = .ok p)
include h

theorem read_of_read : read text = .ok ⟨.operand .eq, p⟩ := by
  simp only [read, PartialVersion.split_of_read h, h]
  rfl

theorem read_append_of_read (op : Operator) :
    read (op.write ++ text) = .ok ⟨.operand op, p⟩ := by
  simp only [read, PartialVersion.split_append_of_read h op, PartialVersion.split_of_read h, h]
  rfl

end Read

end Term

theorem Comparator.readAll_eq (policy : PrereleasePolicy) (token : Text) :
    Comparator.readAll policy token = (·.bounds policy) <$> Term.read token := by
  simp only [Comparator.readAll, Term.read]
  rcases Operator.split token with ⟨_ | op, version⟩
  · dsimp only
    cases PartialVersion.read version <;> rfl
  · dsimp only
    split
    · rfl
    · cases PartialVersion.read version <;> rfl

namespace Arm

/-- The arm that some terms make. -/
def ofTerms (policy : PrereleasePolicy) (terms : List Term) : Arm :=
  ⟨terms.flatMap (·.bounds policy)⟩

/-- Reads the terms of an arm. -/
def readTerms (text : Text) : Except RangeFault (List Term) :=
  let text := Text.trim text
  match Text.pieces " - ".toList text with
  | [_] => do
    let tokens ← attachOperators (Text.words text)
    tokens.mapM Term.read
  | [first, last] => do
    let first ← PartialVersion.read (Text.trim first)
    let last ← PartialVersion.read (Text.trim last)
    return [⟨.lowerEnd, first⟩, ⟨.operand .le, last⟩]
  | _ => .error .hyphenEnds

/-- A hyphen range is read end by end. -/
theorem readTerms_ends_eq_ok_iff {text first last : Text} {terms : List Term}
    (hends : Text.pieces " - ".toList (Text.trim text) = [first, last]) :
    readTerms text = .ok terms ↔ ∃ p q, PartialVersion.read (Text.trim first) = .ok p ∧
      PartialVersion.read (Text.trim last) = .ok q ∧
      terms = [⟨.lowerEnd, p⟩, ⟨.operand .le, q⟩] := by
  rw [readTerms, hends]
  constructor
  · intro h
    obtain ⟨p, hp, h⟩ := bind_eq_ok_iff.mp h
    obtain ⟨q, hq, h⟩ := bind_eq_ok_iff.mp h
    exact ⟨p, q, hp, hq, (Except.ok.inj h).symm⟩
  · rintro ⟨p, q, hp, hq, rfl⟩
    simp only [hp, hq]
    rfl

/-- **An arm is read before the policy matters.** -/
theorem read_eq (policy : PrereleasePolicy) (text : Text) :
    Arm.read policy text = ofTerms policy <$> readTerms text := by
  simp only [Arm.read, readTerms]
  rcases Text.pieces " - ".toList (Text.trim text) with _ | ⟨first, _ | ⟨last, _ | _⟩⟩
  · rfl
  · dsimp only
    cases attachOperators (Text.words (Text.trim text)) with
    | error e => rfl
    | ok tokens =>
      -- Whether a word is read does not depend on the policy, so all words can be read first.
      have hread : tokens.mapM (Comparator.readAll policy) =
          List.map (·.bounds policy) <$> tokens.mapM Term.read := by
        rw [← mapM_map_eq]
        exact congrArg tokens.mapM (funext (Comparator.readAll_eq policy))
      simp only [bind, Except.bind, hread]
      cases tokens.mapM Term.read with
      | error e => rfl
      | ok terms => rfl
  · dsimp only
    cases PartialVersion.read (Text.trim first) with
    | error e => rfl
    | ok first =>
      cases PartialVersion.read (Text.trim last) with
      | error e => rfl
      | ok last =>
        have hbounds : ofTerms policy [⟨.lowerEnd, first⟩, ⟨.operand .le, last⟩] =
            ⟨first.lowerEnd policy ++ last.atMost⟩ := by
          simp [ofTerms, Term.bounds, PartialVersion.bounds]
        exact congrArg Except.ok hbounds.symm
  · rfl

/-- Blanks around an arm do not count. -/
theorem read_trim (policy : PrereleasePolicy) (text : Text) :
    Arm.read policy (Text.trim text) = Arm.read policy text := by
  rw [Arm.read, Arm.read, Text.trim_trim]

/-- **An arm that is no hyphen range** is read word by word, if no operator stands alone. -/
theorem readTerms_eq_mapM {text : Text} (htrim : Text.trim text = text)
    (hpieces : Text.pieces " - ".toList text = [text])
    (hoperator : ∀ word ∈ Text.words text, Operator.read? word = none) :
    readTerms text = (Text.words text).mapM Term.read := by
  simp only [readTerms, htrim, hpieces, attachOperators_of_read?_eq_none hoperator]
  rfl

/-- An arm of one word has one term. -/
theorem exists_term_of_read {policy : PrereleasePolicy} {text : Text} (hword : Text.IsWord text)
    {arm : Arm} (h : Arm.read policy text = .ok arm) :
    ∃ t, Term.read text = .ok t ∧ arm = ofTerms policy [t] := by
  have hpieces : Text.pieces " - ".toList text = [text] :=
    Text.pieces_of_not_mem (by decide) (Text.space_notMem_of_isWord hword)
  rw [read_eq, readTerms, Text.trim_of_isWord hword, hpieces, Text.words_of_isWord hword] at h
  obtain ⟨terms, hterms, rfl⟩ := map_eq_ok_iff.mp h
  obtain ⟨tokens, htokens, hread⟩ := bind_eq_ok_iff.mp hterms
  cases hoperator : Operator.read? text with
  | some op => exact absurd htokens (by simp [attachOperators, hoperator])
  | none =>
    rw [attachOperators_of_read?_eq_none (by simpa using hoperator)] at htokens
    obtain rfl := Except.ok.inj htokens
    rw [mapM_eq_ok_iff, List.map_singleton] at hread
    obtain ⟨t, rfl, ht⟩ := List.map_eq_singleton_iff.mp hread.symm
    exact ⟨t, ht.symm, rfl⟩

end Arm

namespace Range

/-- Reads the terms of the arms of a range. -/
def readTerms (text : Text) : Except RangeFault (List (List Term)) :=
  (Text.pieces "||".toList text).mapM Arm.readTerms

/-- **A range is read before the policy matters.** -/
theorem read_eq (policy : PrereleasePolicy) (text : Text) :
    Range.read policy text =
      (fun arms => { arms := arms.map (Arm.ofTerms policy), policy }) <$> readTerms text := by
  have hread : (Text.pieces "||".toList text).mapM (Arm.read policy) =
      List.map (Arm.ofTerms policy) <$> readTerms text := by
    rw [readTerms, ← mapM_map_eq]
    exact congrArg (Text.pieces _ text).mapM (funext (Arm.read_eq policy))
  rw [Range.read, hread]
  cases readTerms text <;> rfl

/-- Each piece of a range is an arm. -/
theorem exists_readTerms_of_read {policy : PrereleasePolicy} {text piece : Text} {r : Range}
    (h : Range.read policy text = .ok r) (hpiece : piece ∈ Text.pieces "||".toList text) :
    ∃ terms, Arm.readTerms piece = .ok terms := by
  rw [read_eq] at h
  obtain ⟨arms, harms, -⟩ := map_eq_ok_iff.mp h
  obtain ⟨terms, -, hterms⟩ := exists_mem_of_mem_read (mapM_eq_ok_iff.mp harms) hpiece
  exact ⟨terms, hterms⟩

/-- A range that is not cut has one arm. -/
theorem exists_arm_of_read {policy : PrereleasePolicy} {text : Text} {r : Range}
    (hpieces : Text.pieces "||".toList text = [text]) (h : Range.read policy text = .ok r) :
    ∃ arm, Arm.read policy text = .ok arm ∧ r = ⟨[arm], policy⟩ := by
  rw [Range.read, hpieces] at h
  obtain ⟨arms, harms, hr⟩ := bind_eq_ok_iff.mp h
  rw [mapM_eq_ok_iff, List.map_singleton] at harms
  obtain ⟨arm, rfl, harm⟩ := List.map_eq_singleton_iff.mp harms.symm
  exact ⟨arm, harm.symm, (Except.ok.inj hr).symm⟩

end Range

/-! ### Where bounds come from -/

namespace PartialVersion

/-- The shapes of the bounds that a partial version stands for: the version itself, as it is
written, or a version without prerelease, perhaps lowered to `-0`. -/
inductive Bound (policy : PrereleasePolicy) (p : PartialVersion) : Comparator → Prop
  /-- The version as it is written. -/
  | written {r : Relation} {a b c : Nat} {pre : List PreIdentifier} :
      p = .full a b c pre → Bound policy p ⟨r, { major := a, minor := b, patch := c, pre }⟩
  /-- A lower bound that is derived. -/
  | lower {a b c : Nat} : a ≤ maxNumber → b ≤ maxNumber → c ≤ maxNumber →
      Bound policy p ⟨.ge, start policy a b c⟩
  /-- An upper bound that is derived. -/
  | upper {a b c : Nat} : a ≤ maxNumber → b ≤ maxNumber → c ≤ maxNumber →
      Bound policy p ⟨.lt, .floor a b c⟩

variable {policy : PrereleasePolicy} {p : PartialVersion}

theorem nextNumber_le (n : Nat) : nextNumber n ≤ maxNumber :=
  Nat.min_le_right _ _

theorem bound_startFull {a b c : Nat} {pre : List PreIdentifier} (ha : a ≤ maxNumber)
    (hb : b ≤ maxNumber) (hc : c ≤ maxNumber) :
    Bound policy (.full a b c pre) ⟨.ge, startFull policy a b c pre⟩ := by
  unfold startFull
  split
  · exact .lower ha hb hc
  · exact .written rfl

theorem bound_caretLimit {a b c : Nat} (ha : a ≤ maxNumber) (hb : b ≤ maxNumber) :
    Bound policy p ⟨.lt, caretLimit a b c⟩ := by
  unfold caretLimit
  split
  · exact .upper ha hb (nextNumber_le c)
  · exact .upper ha (nextNumber_le b) (Nat.zero_le _)
  · exact .upper (nextNumber_le a) (Nat.zero_le _) (Nat.zero_le _)

section Operations

variable (hp : ∀ n ∈ p.components, n ≤ maxNumber)
include hp

theorem bound_exact : ∀ bound ∈ p.exact policy, Bound policy p bound := by
  cases p <;> simp only [components, List.forall_mem_cons, exact] at hp ⊢
  case wildcard => simp
  case major a =>
    exact ⟨.lower hp.1 (Nat.zero_le _) (Nat.zero_le _),
      .upper (nextNumber_le a) (Nat.zero_le _) (Nat.zero_le _), by simp⟩
  case minor a b =>
    exact ⟨.lower hp.1 hp.2.1 (Nat.zero_le _), .upper hp.1 (nextNumber_le b) (Nat.zero_le _),
      by simp⟩
  case full a b c pre => exact ⟨.written rfl, by simp⟩

theorem bound_caret : ∀ bound ∈ p.caret policy, Bound policy p bound := by
  cases p with
  | wildcard => simp [caret]
  | major a => exact bound_exact hp
  | minor a b =>
    cases a with
    | zero => exact bound_exact hp
    | succ a =>
      simp only [components, List.forall_mem_cons, caret] at hp ⊢
      exact ⟨.lower hp.1 hp.2.1 (Nat.zero_le _),
        .upper (nextNumber_le _) (Nat.zero_le _) (Nat.zero_le _), by simp⟩
  | full a b c pre =>
    simp only [components, List.forall_mem_cons, caret] at hp ⊢
    exact ⟨bound_startFull hp.1 hp.2.1 hp.2.2.1, bound_caretLimit hp.1 hp.2.1, by simp⟩

theorem bound_tilde : ∀ bound ∈ p.tilde policy, Bound policy p bound := by
  cases p with
  | wildcard | major a | minor a b => exact bound_exact hp
  | full a b c pre =>
    simp only [components, List.forall_mem_cons, tilde] at hp ⊢
    exact ⟨bound_startFull hp.1 hp.2.1 hp.2.2.1,
      .upper hp.1 (nextNumber_le b) (Nat.zero_le _), by simp⟩

theorem bound_greaterThan : ∀ bound ∈ p.greaterThan policy, Bound policy p bound := by
  cases p <;> simp only [components, List.forall_mem_cons, greaterThan, nothing] at hp ⊢
  case wildcard => exact ⟨.upper (Nat.zero_le _) (Nat.zero_le _) (Nat.zero_le _), by simp⟩
  case major a => exact ⟨.lower (nextNumber_le a) (Nat.zero_le _) (Nat.zero_le _), by simp⟩
  case minor a b => exact ⟨.lower hp.1 (nextNumber_le b) (Nat.zero_le _), by simp⟩
  case full a b c pre => exact ⟨.written rfl, by simp⟩

theorem bound_lowerEnd : ∀ bound ∈ p.lowerEnd policy, Bound policy p bound := by
  cases p <;> simp only [components, List.forall_mem_cons, lowerEnd] at hp ⊢
  case wildcard => simp
  case major a => exact ⟨.lower hp.1 (Nat.zero_le _) (Nat.zero_le _), by simp⟩
  case minor a b => exact ⟨.lower hp.1 hp.2.1 (Nat.zero_le _), by simp⟩
  case full a b c pre => exact ⟨bound_startFull hp.1 hp.2.1 hp.2.2.1, by simp⟩

theorem bound_atLeast : ∀ bound ∈ p.atLeast policy, Bound policy p bound := by
  cases p with
  | wildcard | major a | minor a b => exact bound_lowerEnd hp
  | full a b c pre =>
    simp only [atLeast, List.forall_mem_cons]
    exact ⟨.written rfl, by simp⟩

theorem bound_lessThan : ∀ bound ∈ p.lessThan, Bound policy p bound := by
  cases p <;> simp only [components, List.forall_mem_cons, lessThan, nothing] at hp ⊢
  case wildcard => exact ⟨.upper (Nat.zero_le _) (Nat.zero_le _) (Nat.zero_le _), by simp⟩
  case major a => exact ⟨.upper hp.1 (Nat.zero_le _) (Nat.zero_le _), by simp⟩
  case minor a b => exact ⟨.upper hp.1 hp.2.1 (Nat.zero_le _), by simp⟩
  case full a b c pre => exact ⟨.written rfl, by simp⟩

theorem bound_atMost : ∀ bound ∈ p.atMost, Bound policy p bound := by
  cases p <;> simp only [components, List.forall_mem_cons, atMost] at hp ⊢
  case wildcard => simp
  case major a => exact ⟨.upper (nextNumber_le a) (Nat.zero_le _) (Nat.zero_le _), by simp⟩
  case minor a b => exact ⟨.upper hp.1 (nextNumber_le b) (Nat.zero_le _), by simp⟩
  case full a b c pre => exact ⟨.written rfl, by simp⟩

end Operations

end PartialVersion

/-- **Every bound of a term has one of the three shapes.** -/
theorem Term.bound_of_mem_bounds {policy : PrereleasePolicy} {t : Term}
    (ht : ∀ n ∈ t.version.components, n ≤ maxNumber) {bound : Comparator}
    (h : bound ∈ t.bounds policy) : t.version.Bound policy bound := by
  obtain ⟨role, p⟩ := t
  cases role with
  | lowerEnd => exact PartialVersion.bound_lowerEnd ht bound h
  | operand op =>
    cases op with
    | ge => exact PartialVersion.bound_atLeast ht bound h
    | le => exact PartialVersion.bound_atMost ht bound h
    | gt => exact PartialVersion.bound_greaterThan ht bound h
    | lt => exact PartialVersion.bound_lessThan ht bound h
    | eq => exact PartialVersion.bound_exact ht bound h
    | caret => exact PartialVersion.bound_caret ht bound h
    | tilde => exact PartialVersion.bound_tilde ht bound h

/-- A prerelease that is written is the version of one of the bounds. -/
theorem Term.exists_bound_of_pre_ne_nil (policy : PrereleasePolicy) {t : Term} {a b c : Nat}
    {pre : List PreIdentifier} (ht : t.version = .full a b c pre) (hpre : pre ≠ []) :
    ∃ bound ∈ t.bounds policy, bound.version = { major := a, minor := b, patch := c, pre } := by
  obtain ⟨role, p⟩ := t
  obtain rfl : p = .full a b c pre := ht
  cases role with
  | lowerEnd => simp [bounds, PartialVersion.lowerEnd, PartialVersion.startFull, hpre]
  | operand op =>
    cases op <;> simp [bounds, PartialVersion.bounds, PartialVersion.atLeast,
      PartialVersion.atMost, PartialVersion.greaterThan, PartialVersion.lessThan,
      PartialVersion.exact, PartialVersion.caret, PartialVersion.tilde, PartialVersion.startFull,
      hpre]

/-! ### Where terms come from -/

namespace Arm

/-- The texts of the versions that an arm is written with: the ends of a hyphen range, or the words
without the operators at their fronts. -/
def versionTexts (text : Text) : List Text :=
  match Text.pieces " - ".toList (Text.trim text) with
  | [_] => ((Text.words (Text.trim text)).filter fun word => (Operator.read? word).isNone).map
      Operator.operand
  | ends => ends.map Text.trim

end Arm

theorem Term.read_eq_ok {token : Text} {t : Term} (h : Term.read token = .ok t) :
    (Operator.split (Operator.operand token)).1 = none ∧
      PartialVersion.read (Operator.operand token) = .ok t.version := by
  unfold Term.read at h
  split at h
  · next version hsplit =>
    obtain ⟨p, hp, rfl⟩ := map_eq_ok_iff.mp h
    have hoperand : Operator.operand token = version := congrArg Prod.snd hsplit
    have hnone : (Operator.split token).1 = none := congrArg Prod.fst hsplit
    rw [hoperand]
    refine ⟨?_, hp⟩
    rwa [← hoperand, Operator.operand_of_split_eq_none hnone]
  · next op version hsplit =>
    have hoperand : Operator.operand token = version := congrArg Prod.snd hsplit
    rw [hoperand]
    split at h
    · exact absurd h (by simp)
    · next hnone =>
      obtain ⟨p, hp, rfl⟩ := map_eq_ok_iff.mp h
      exact ⟨by simpa using hnone, hp⟩

/-- **The versions of the terms are the versions that are written**, in order. -/
theorem Arm.map_read_versionTexts {text : Text} {terms : List Term}
    (h : Arm.readTerms text = .ok terms) :
    (Arm.versionTexts text).map PartialVersion.read = (terms.map Term.version).map .ok := by
  rw [List.map_map]
  revert h
  simp only [Arm.readTerms, Arm.versionTexts]
  rcases Text.pieces " - ".toList (Text.trim text) with _ | ⟨first, _ | ⟨last, _ | _⟩⟩ <;>
    intro h
  · exact absurd h (by simp)
  · obtain ⟨tokens, htokens, hterms⟩ := bind_eq_ok_iff.mp h
    have hread := mapM_eq_ok_iff.mp hterms
    have hnone : ∀ token ∈ tokens, (Operator.split (Operator.operand token)).1 = none := by
      intro token htoken
      obtain ⟨t, -, ht⟩ := exists_mem_of_mem_read hread htoken
      exact (Term.read_eq_ok ht).1
    dsimp only
    rw [← map_operand_of_attachOperators htokens hnone, List.map_map]
    exact map_eq_map_of_read hread fun token t ht => (Term.read_eq_ok ht).2
  · obtain ⟨p, hp, hlast⟩ := bind_eq_ok_iff.mp h
    obtain ⟨q, hq, hterms⟩ := bind_eq_ok_iff.mp hlast
    obtain rfl := Except.ok.inj hterms
    simp [hp, hq]
  · exact absurd h (by simp)

/-- The operator of a term is the one it is written behind, or `=`. -/
theorem Term.role_of_read {token : Text} {t : Term} (h : Term.read token = .ok t) :
    t.role = .operand ((Operator.split token).1.getD .eq) := by
  unfold Term.read at h
  split at h
  · next version hsplit =>
    obtain ⟨p, -, rfl⟩ := map_eq_ok_iff.mp h
    rw [hsplit]
    rfl
  · next op version hsplit =>
    split at h
    · exact absurd h (by simp)
    · obtain ⟨p, -, rfl⟩ := map_eq_ok_iff.mp h
      rw [hsplit]
      rfl

theorem Arm.le_maxNumber_of_readTerms {text : Text} {terms : List Term}
    (h : Arm.readTerms text = .ok terms) {t : Term} (ht : t ∈ terms) :
    ∀ n ∈ t.version.components, n ≤ maxNumber := by
  obtain ⟨s, -, hs⟩ :=
    exists_mem_of_mem_results (Arm.map_read_versionTexts h) (List.mem_map_of_mem ht)
  exact PartialVersion.le_maxNumber_of_read hs

end JuliaReleases
