import JuliaReleases.Proofs.Range.Grammar
import JuliaReleases.Proofs.Range.Partition

/-!
# Ranges at the greatest number

A range that is written from a release is meant to take the release in, or, with `>`, to keep it
out: `1`, `1.6`, `^1.6.7`, `~1.6.7`, `<=1` and `<=1.6` all have `1.6.7`, while `>1` and `>1.6` have
not. Where such a range ends, or begins, is found by **raising** one of its numbers to the next one.

But `JuliaReleases.maxNumber` has no next number that could be written. It is left as it is, and the
bound that should lie behind the release lies in front of it. So a range has the release that it is
written from if and only if the raised number is not the greatest one
(`JuliaReleases.mem_written_range_iff`); which number that is depends on the operator, and
`JuliaReleases.Version.TakesIn` and `JuliaReleases.Version.KeepsOut` list it for each of the ranges.
-/

namespace JuliaReleases

/-! ### Raised numbers -/

namespace PartialVersion

variable {policy : PrereleasePolicy} {v : Version} {l rest : List Nat}
  {n m k a b c a' b' c' : Nat}

/-- **A bound that raises a number** lies behind a version with this number if there is a next
one. -/
theorem lt_floor_next_iff (hmax : ∀ n ∈ v.numbers, n ≤ maxNumber)
    (hv : v.numbers = l ++ n :: rest) (h : [a, b, c] = l ++ nextNumber n :: List.replicate m 0) :
    v < .floor a b c ↔ n < maxNumber := by
  have hn : n ≤ maxNumber := hmax n (by simp [hv])
  have htake : v.numbers.take (l.length + 1) = l ++ [n] := by
    rw [hv, List.append_cons]
    exact List.take_left' (by simp)
  rcases hn.lt_or_eq with hlt | rfl
  · rw [nextNumber_of_lt hlt] at h
    rw [lt_floor_succ_iff l h, htake]
    exact iff_of_true le_rfl hlt
  · -- The bound is written with the numbers of the version.
    have hsame : [a, b, c] = (l ++ [maxNumber]) ++ List.replicate m 0 := by
      simpa [nextNumber] using h
    rw [lt_floor_iff_take (l ++ [maxNumber]) hsame, List.length_append, List.length_singleton,
      htake]
    exact iff_of_false (lt_irrefl _) (lt_irrefl _)

/-- A lower bound that is written from a release lies in front of it. -/
theorem start_le_of_append (hv : v.pre = []) (hnumbers : v.numbers = l ++ rest)
    (h : [a, b, c] = l ++ List.replicate m 0) : start policy a b c ≤ v := by
  rw [start_le_iff_take hv l h, hnumbers, List.take_left]

/-- Between a bound that is written from a release and one that raises a number of it. -/
theorem window_next_iff (hv : v.pre = []) (hmax : ∀ n ∈ v.numbers, n ≤ maxNumber)
    (l l' : List Nat) {rest' : List Nat} (hlower : v.numbers = l ++ rest)
    (hupper : v.numbers = l' ++ n :: rest') (hstart : [a, b, c] = l ++ List.replicate m 0)
    (hnext : [a', b', c'] = l' ++ nextNumber n :: List.replicate k 0) :
    (start policy a b c ≤ v ∧ v < .floor a' b' c') ↔ n < maxNumber :=
  (and_iff_right (start_le_of_append hv hlower hstart)).trans (lt_floor_next_iff hmax hupper hnext)

end PartialVersion

/-! ### Ranges that are written from a release -/

namespace Version

/-- The first numbers of a version, with points between them. -/
def firstNumbers (v : Version) (k : Nat) : Text :=
  dotted ((v.numbers.take k).map Decimal.write)

/-- The number that `^` raises: the first one other than zero, or the last. -/
def caretNumber (v : Version) : Nat :=
  match v.major, v.minor with
  | 0, 0 => v.patch
  | 0, minor => minor
  | major, _ => major

/-- **The ranges that are meant to take in the release that they are written from**, and the number
that is raised to find their ends. -/
inductive TakesIn (v : Version) : Text → Nat → Prop
  /-- The major number, as in `1`. -/
  | major : TakesIn v (v.firstNumbers 1) v.major
  /-- Major and minor number, as in `1.6`. -/
  | minor : TakesIn v (v.firstNumbers 2) v.minor
  /-- All numbers behind `^`, as in `^1.6.7`. -/
  | caret : TakesIn v (Operator.caret.write ++ v.firstNumbers 3) v.caretNumber
  /-- All numbers behind `~`, as in `~1.6.7`. -/
  | tilde : TakesIn v (Operator.tilde.write ++ v.firstNumbers 3) v.minor
  /-- The major number as an upper end, as in `<=1`. -/
  | atMostMajor : TakesIn v (Operator.le.write ++ v.firstNumbers 1) v.major
  /-- Major and minor number as an upper end, as in `<=1.6`. -/
  | atMostMinor : TakesIn v (Operator.le.write ++ v.firstNumbers 2) v.minor

/-- **The ranges that are meant to keep out the release that they are written from**, and the number
that is raised to find where they begin. -/
inductive KeepsOut (v : Version) : Text → Nat → Prop
  /-- What comes behind the major number, as in `>1`. -/
  | major : KeepsOut v (Operator.gt.write ++ v.firstNumbers 1) v.major
  /-- What comes behind major and minor number, as in `>1.6`. -/
  | minor : KeepsOut v (Operator.gt.write ++ v.firstNumbers 2) v.minor

variable {v : Version} {k : Nat}

section Read

variable (hnumbers : ∀ n ∈ v.numbers, n ≤ maxNumber) (hpos : 1 ≤ k) (hk : k ≤ 3)
include hnumbers hpos hk

theorem read_firstNumbers : PartialVersion.read (v.firstNumbers k) =
    .ok (.ofComponents ((v.numbers.take k).map some)) := by
  have hlength : (v.numbers.take k).length = k := by
    rw [List.length_take, length_numbers, min_eq_left hk]
  have hcomponents : List.Forall₂ PartialVersion.Component
      ((v.numbers.take k).map Decimal.write) ((v.numbers.take k).map some) := by
    rw [List.forall₂_map_left_iff, List.forall₂_map_right_iff, List.forall₂_same]
    exact fun n hn => .number (hnumbers n (List.mem_of_mem_take hn))
  have hwritten : PartialVersion.Written (v.firstNumbers k) _ :=
    .components List.mem_cons_self (by rwa [List.length_map, hlength])
      (by rwa [List.length_map, hlength]) hcomponents
  exact PartialVersion.read_of_written hwritten

theorem isToken_firstNumbers : Range.IsToken (v.firstNumbers k) := by
  refine Range.isToken_of_read (read_firstNumbers hnumbers hpos hk) (fun c hc => ?_) fun hbar => ?_
  · rcases isDigit_of_mem_dotted_write hc with hc | rfl
    · exact isBlank_eq_false_of_isIdentifierChar (isIdentifierChar_of_isDigit hc)
    · rfl
  · rcases isDigit_of_mem_dotted_write hbar with hbar | hbar <;> exact absurd hbar (by decide)

end Read

end Version

namespace PartialVersion

variable {policy : PrereleasePolicy} {v : Version} (hv : v.pre = [])
  (hnumbers : ∀ n ∈ v.numbers, n ≤ maxNumber)
include hnumbers

theorem atMost_major_iff_lt :
    (∀ bound ∈ (major v.major).atMost, bound.Admits v) ↔ v.major < maxNumber := by
  rw [atMost, List.forall_mem_singleton]
  exact lt_floor_next_iff (l := []) (m := 2) hnumbers rfl rfl

theorem atMost_minor_iff_lt :
    (∀ bound ∈ (minor v.major v.minor).atMost, bound.Admits v) ↔ v.minor < maxNumber := by
  rw [atMost, List.forall_mem_singleton]
  exact lt_floor_next_iff (l := [v.major]) (m := 1) hnumbers rfl rfl

include hv

theorem exact_major_iff_lt :
    (∀ bound ∈ (major v.major).exact policy, bound.Admits v) ↔ v.major < maxNumber := by
  rw [exact, forall_admits_pair]
  exact window_next_iff hv hnumbers [v.major] [] (m := 2) (k := 2) rfl rfl rfl rfl

theorem exact_minor_iff_lt :
    (∀ bound ∈ (minor v.major v.minor).exact policy, bound.Admits v) ↔ v.minor < maxNumber := by
  rw [exact, forall_admits_pair]
  exact window_next_iff hv hnumbers [v.major, v.minor] [v.major] (m := 1) (k := 1) rfl rfl rfl rfl

theorem tilde_iff_lt : (∀ bound ∈ (full v.major v.minor v.patch []).tilde policy, bound.Admits v) ↔
    v.minor < maxNumber := by
  rw [tilde, forall_admits_pair]
  exact window_next_iff hv hnumbers v.numbers [v.major] (m := 0) (k := 1)
    (List.append_nil _).symm rfl rfl rfl

/-- The cases are those of the number that is raised. -/
theorem caret_iff_lt : (∀ bound ∈ (full v.major v.minor v.patch []).caret policy, bound.Admits v) ↔
    v.caretNumber < maxNumber := by
  rw [caret, forall_admits_pair]
  obtain ⟨a, b, c, pre, build⟩ := v
  rcases a with _ | a
  · rcases b with _ | b
    · exact window_next_iff hv hnumbers [0, 0, c] [0, 0] (m := 0) (k := 0) rfl rfl rfl rfl
    · exact window_next_iff hv hnumbers [0, b + 1, c] [0] (m := 0) (k := 1) rfl rfl rfl rfl
  · exact window_next_iff hv hnumbers [a + 1, b, c] [] (m := 0) (k := 2) rfl rfl rfl rfl

end PartialVersion

section Read

variable {policy : PrereleasePolicy} {v : Version} {k : Nat} {P : Prop} (hv : v.pre = [])
  (hnumbers : ∀ n ∈ v.numbers, n ≤ maxNumber) (hpos : 1 ≤ k) (hk : k ≤ 3)
include hv hnumbers hpos hk

theorem Version.exists_read_operator_iff (op : Operator)
    (h : (∀ bound ∈ (PartialVersion.ofComponents ((v.numbers.take k).map some)).bounds policy op,
      bound.Admits v) ↔ P) :
    ∃ r, Range.read policy (op.write ++ v.firstNumbers k) = .ok r ∧ (v ∈ r ↔ P) := by
  refine ⟨_, (isToken_firstNumbers hnumbers hpos hk).read_operator
    (read_firstNumbers hnumbers hpos hk) op, ?_⟩
  rw [Range.mem_ofTerms_iff hv, List.forall_mem_singleton]
  exact h

theorem Version.exists_read_bare_iff
    (h : (∀ bound ∈ (PartialVersion.ofComponents ((v.numbers.take k).map some)).exact policy,
      bound.Admits v) ↔ P) :
    ∃ r, Range.read policy (v.firstNumbers k) = .ok r ∧ (v ∈ r ↔ P) := by
  refine ⟨_, (isToken_firstNumbers hnumbers hpos hk).read_bare
    (read_firstNumbers hnumbers hpos hk), ?_⟩
  rw [Range.mem_ofTerms_iff hv, List.forall_mem_singleton]
  exact h

end Read

open Version PartialVersion in
/-- **A range has the release that it is written from** if and only if the number that it raises is
not the greatest one, and a range that is meant to keep the release out does so under the same
condition, whatever the policy on prereleases. -/
theorem mem_written_range_iff (policy : PrereleasePolicy) {v : Version} (hv : v.pre = [])
    (hnumbers : ∀ n ∈ v.numbers, n ≤ maxNumber) :
    (∀ text n, v.TakesIn text n →
      ∃ r, Range.read policy text = .ok r ∧ (v ∈ r ↔ n < maxNumber)) ∧
    (∀ text n, v.KeepsOut text n →
      ∃ r, Range.read policy text = .ok r ∧ (v ∉ r ↔ n < maxNumber)) := by
  constructor
  · intro text n h
    cases h with
    | major =>
      exact exists_read_bare_iff hv hnumbers le_rfl (by decide)
        (exact_major_iff_lt hv hnumbers)
    | minor =>
      exact exists_read_bare_iff hv hnumbers (by decide) (by decide)
        (exact_minor_iff_lt hv hnumbers)
    | caret =>
      exact exists_read_operator_iff hv hnumbers (by decide) le_rfl .caret
        (caret_iff_lt hv hnumbers)
    | tilde =>
      exact exists_read_operator_iff hv hnumbers (by decide) le_rfl .tilde
        (tilde_iff_lt hv hnumbers)
    | atMostMajor =>
      exact exists_read_operator_iff hv hnumbers le_rfl (by decide) .le
        (atMost_major_iff_lt hnumbers)
    | atMostMinor =>
      exact exists_read_operator_iff hv hnumbers (by decide) (by decide) .le
        (atMost_minor_iff_lt hnumbers)
  · -- `>` is the opposite of `<=`.
    have hbounds : policy.GoesByBounds v := .of_release hv
    intro text n h
    cases h with
    | major =>
      have hopposite := greaterThan_iff_not_atMost (p := .major v.major) hbounds
      obtain ⟨r, hr, hmem⟩ := exists_read_operator_iff (k := 1) hv hnumbers le_rfl (by decide) .gt
        hopposite
      exact ⟨r, hr, (not_congr hmem).trans (not_not.trans (atMost_major_iff_lt hnumbers))⟩
    | minor =>
      have hopposite := greaterThan_iff_not_atMost (p := .minor v.major v.minor) hbounds
      obtain ⟨r, hr, hmem⟩ := exists_read_operator_iff (k := 2) hv hnumbers (by decide) (by decide)
        .gt hopposite
      exact ⟨r, hr, (not_congr hmem).trans (not_not.trans (atMost_minor_iff_lt hnumbers))⟩

/-- The greatest minor number: `^` does not raise it and has the release, `>` raises it and does not
keep the release out. -/
theorem mem_written_range_iff_greatest :
    let v : Version := { major := 1, minor := maxNumber, patch := 0 }
    v.pre = [] ∧ (∀ n ∈ v.numbers, n ≤ maxNumber) ∧
      v.TakesIn "^1.18446744073709551615.0".toList 1 ∧
      (∃ r, Range.read .named "^1.18446744073709551615.0".toList = .ok r ∧
        (v ∈ r ↔ 1 < maxNumber)) ∧
      v.KeepsOut ">1.18446744073709551615".toList maxNumber ∧
      ∃ r, Range.read .named ">1.18446744073709551615".toList = .ok r ∧
        (v ∉ r ↔ maxNumber < maxNumber) := by
  intro v
  have hmax : Decimal.write maxNumber = "18446744073709551615".toList :=
    Decimal.write_of_read? rfl rfl
  have hcaret : Operator.caret.write ++ v.firstNumbers 3 = "^1.18446744073709551615.0".toList := by
    show ['^'] ++ dotted [Decimal.write 1, Decimal.write maxNumber, Decimal.write 0] = _
    rw [hmax]
    rfl
  have hgreater : Operator.gt.write ++ v.firstNumbers 2 = ">1.18446744073709551615".toList := by
    show ['>'] ++ dotted [Decimal.write 1, Decimal.write maxNumber] = _
    rw [hmax]
    rfl
  have hnumbers : ∀ n ∈ v.numbers, n ≤ maxNumber := by decide
  have htakes : v.TakesIn "^1.18446744073709551615.0".toList 1 := hcaret ▸ .caret
  have hkeeps : v.KeepsOut ">1.18446744073709551615".toList maxNumber := hgreater ▸ .minor
  exact ⟨rfl, hnumbers, htakes, (mem_written_range_iff .named rfl hnumbers).1 _ _ htakes, hkeeps,
    (mem_written_range_iff .named rfl hnumbers).2 _ _ hkeeps⟩

/-- **The greatest major number as a range does not have its own release**, and behind `>` it
does. -/
theorem exists_release_not_in_its_range :
    let v : Version := { major := maxNumber, minor := 0, patch := 0 }
    (∃ r, Range.read .named "18446744073709551615".toList = .ok r ∧ v ∉ r) ∧
      ∃ r, Range.read .named ">18446744073709551615".toList = .ok r ∧ v ∈ r :=
  ⟨⟨_, rfl, by decide⟩, _, rfl, by decide⟩

end JuliaReleases
