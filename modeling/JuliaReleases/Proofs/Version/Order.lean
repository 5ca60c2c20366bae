import Mathlib.Data.List.Lex
import Mathlib.Order.Bounds.Basic
import Mathlib.Order.Std
import JuliaReleases.Version.Basic

/-!
# The order of versions is linear

The comparison of versions is lexicographic in six parts. This file shows that it is a **linear
order**, `JuliaReleases.Version.instLinearOrder`, so that "greatest" and "least" mean what they
should, and reduces it to the three numbers wherever that is possible:

* `JuliaReleases.Version.lt_iff` – the numbers decide, and what stands behind them only if they are
  equal;
* `JuliaReleases.Version.lt_floor_iff` – against a lowest prerelease `-0` the numbers decide alone,
  whatever the other version is. This is why such a bound keeps a release out together with all its
  prereleases;
* `JuliaReleases.Version.release_le_iff` – against a full release they decide alone if the other
  version is a full release, too.
-/

namespace JuliaReleases

open Std

/-! ### Identifiers -/

namespace PreIdentifier

instance : TransOrd PreIdentifier :=
  inferInstanceAs (TransCmp (compareLex _ (compareLex _ _)))

/-- The comparison of identifiers, part by part. -/
theorem compare_eq (i j : PreIdentifier) :
    compare i j = (compare (!i.isNumeric) (!j.isNumeric)).then
      ((compare (if i.isNumeric then i.text.length else 0)
        (if j.isNumeric then j.text.length else 0)).then (compare i.text j.text)) :=
  rfl

instance : LawfulEqOrd PreIdentifier where
  eq_of_compare {i j} h := by
    rw [compare_eq, Ordering.then_eq_eq, Ordering.then_eq_eq] at h
    have htext : i.text = j.text := LawfulEqCmp.eq_of_compare h.2.2
    cases i
    cases j
    simpa using htext

/-- A digit does not come before `0`. -/
theorem isLE_compare_zero {c : Char} (h : c.isDigit = true) : (compare ['0'] [c]).isLE = true := by
  have hle : '0' ≤ c := by
    simp only [Char.isDigit, Bool.and_eq_true, decide_eq_true_eq] at h
    exact h.1
  have hcompare : (compare '0' c).isLE = true :=
    (LawfulOrderCmp.compareOfLessAndEq Char).isLE_compare '0' c |>.mpr hle
  rwa [List.compare_cons_cons, List.compare_nil_nil, Ordering.then_eq]

/-- No identifier comes before `0`. -/
theorem isLE_compare_lowest (i : PreIdentifier) : (compare lowest i).isLE = true := by
  have hlowest : lowest.isNumeric = true := by decide
  rw [compare_eq, hlowest]
  cases hi : i.isNumeric with
  | false => rfl
  | true =>
    obtain ⟨c, rest, htext⟩ := List.exists_cons_of_ne_nil i.wellFormed.1.1
    rw [htext]
    cases rest with
    | nil =>
      have hc : c.isDigit = true := by
        rw [isNumeric, htext] at hi
        simpa [Decimal.isNumeral] using hi
      exact isLE_compare_zero hc
    | cons d rest =>
      have hlength : compare 1 (c :: d :: rest).length = .lt := by
        rw [Nat.compare_eq_lt, List.length_cons, List.length_cons]
        omega
      change (Ordering.then .eq ((compare 1 (c :: d :: rest).length).then _)).isLE = true
      rw [hlength]
      rfl

end PreIdentifier

/-- Texts of equal length that agree behind their zeros are equal. -/
theorem eq_of_dropWhile_zero_eq {s t : Text} (hlength : s.length = t.length)
    (h : s.dropWhile (· == '0') = t.dropWhile (· == '0')) : s = t := by
  have hzeros : ∀ u : Text, u.takeWhile (· == '0') =
      List.replicate (u.length - (u.dropWhile (· == '0')).length) '0' := by
    intro u
    refine List.eq_replicate_iff.mpr ⟨?_, fun c hc => ?_⟩
    · have hu := congrArg List.length (List.takeWhile_append_dropWhile (p := (· == '0')) (l := u))
      rw [List.length_append] at hu
      omega
    · have hall := List.all_eq_true.mp (List.all_takeWhile (p := (· == '0')) (l := u)) c hc
      simpa using hall
  rw [← List.takeWhile_append_dropWhile (p := (· == '0')) (l := s),
    ← List.takeWhile_append_dropWhile (p := (· == '0')) (l := t), hzeros s, hzeros t, h, hlength]

namespace BuildIdentifier

instance : TransOrd BuildIdentifier :=
  inferInstanceAs (TransCmp (compareLex _ (compareLex _ (compareLex _ _))))

/-- The comparison of identifiers, part by part. -/
theorem compare_eq (i j : BuildIdentifier) :
    compare i j = (compare (!i.isNumeric) (!j.isNumeric)).then
      ((compare (if i.isNumeric then i.significant.length else 0)
        (if j.isNumeric then j.significant.length else 0)).then
        ((compare i.significant j.significant).then (compare i.text.length j.text.length))) :=
  rfl

instance : LawfulEqOrd BuildIdentifier where
  eq_of_compare {i j} h := by
    simp only [compare_eq, Ordering.then_eq_eq, LawfulEqCmp.compare_eq_iff_eq] at h
    obtain ⟨hnumeric, _, hsignificant, hlength⟩ := h
    have htext : i.text = j.text := by
      rw [Bool.not_inj_iff] at hnumeric
      simp only [significant, ← hnumeric] at hsignificant
      split at hsignificant
      · exact eq_of_dropWhile_zero_eq hlength hsignificant
      · exact hsignificant
    cases i
    cases j
    simpa using htext

end BuildIdentifier

/-! ### Versions -/

namespace Version

instance : TransOrd Version :=
  inferInstanceAs (TransCmp (compareLex _ (compareLex _ (compareLex _ (compareLex _
    (compareLex _ _))))))

/-- The three numbers of a version. -/
def numbers (v : Version) : List Nat :=
  [v.major, v.minor, v.patch]

theorem length_numbers (v : Version) : v.numbers.length = 3 :=
  rfl

/-- The comparison of what stands behind the numbers. -/
def compareSuffix (v w : Version) : Ordering :=
  (compare v.pre.isEmpty w.pre.isEmpty).then ((compare v.pre w.pre).then (compare v.build w.build))

/-- The comparison of versions, part by part. -/
theorem compare_eq (v w : Version) : compare v w = (compare v.major w.major).then
    ((compare v.minor w.minor).then ((compare v.patch w.patch).then (compareSuffix v w))) :=
  rfl

instance : LawfulEqOrd Version where
  eq_of_compare {v w} h := by
    simp only [compare_eq, compareSuffix, Ordering.then_eq_eq, LawfulEqCmp.compare_eq_iff_eq] at h
    obtain ⟨hmajor, hminor, hpatch, _, hpre, hbuild⟩ := h
    cases v
    cases w
    simp_all

instance : LawfulOrderOrd Version where
  isLE_compare v w := Iff.rfl
  isGE_compare v w := by
    rw [Std.OrientedCmp.isGE_eq_isLE]
    exact Iff.rfl

instance : LawfulOrderLT Version where
  lt_iff v w := by
    change compare v w = .lt ↔ (compare v w).isLE = true ∧ ¬ (compare w v).isLE = true
    rw [@OrientedCmp.eq_swap _ compare _ w v]
    cases compare v w <;> simp

instance : IsLinearOrder Version :=
  IsLinearOrder.of_ord

instance : LawfulOrderLeftLeaningMin Version where
  min_eq_left _ _ h := if_pos h
  min_eq_right _ _ h := if_neg h

instance : LawfulOrderLeftLeaningMax Version where
  max_eq_left v w h := by
    change (if v ≤ w then w else v) = v
    split
    · exact Std.le_antisymm h ‹_›
    · rfl
  max_eq_right v w h := if_pos (Std.le_of_not_ge h)

/-- The order of versions is linear. -/
instance instLinearOrder : LinearOrder Version :=
  LinearOrder.ofStd Version

/-- The numbers decide, and what stands behind them if they are equal. -/
theorem lt_iff {v w : Version} :
    v < w ↔ v.numbers < w.numbers ∨ v.numbers = w.numbers ∧ compareSuffix v w = .lt := by
  change compare v w = .lt ↔ _
  simp only [compare_eq, Ordering.then_eq_lt, Nat.compare_eq_lt, Nat.compare_eq_eq, numbers,
    List.cons_lt_cons_iff, List.cons.injEq]
  grind

/-- Nothing with the numbers of a lowest prerelease comes before it. -/
theorem compareSuffix_floor_ne_lt (v : Version) (major minor patch : Nat) :
    compareSuffix v (floor major minor patch) ≠ .lt := by
  intro h
  obtain ⟨a, b, c, pre, build⟩ := v
  cases pre with
  | nil =>
    change Ordering.gt.then _ = .lt at h
    exact absurd h (by simp)
  | cons i is =>
    have hi : compare i .lowest ≠ .lt := by
      rw [@OrientedCmp.eq_swap _ compare]
      have := i.isLE_compare_lowest
      cases hcompare : compare PreIdentifier.lowest i <;> simp_all
    have his : compare is [] ≠ .lt := by
      cases is <;> simp
    have hbuild : compare build [] ≠ .lt := by
      cases build <;> simp
    simp only [compareSuffix, floor, List.compare_cons_cons, Ordering.then_eq_lt] at h
    rcases h with h | ⟨_, (h | ⟨_, h⟩) | ⟨_, h⟩⟩
    · simp at h
    · exact hi h
    · exact his h
    · exact hbuild h

/-- **A lowest prerelease is where its release begins**: the numbers alone decide what comes before
it. -/
theorem lt_floor_iff {v : Version} {major minor patch : Nat} :
    v < floor major minor patch ↔ v.numbers < [major, minor, patch] := by
  rw [lt_iff, or_iff_left]
  · rfl
  · exact fun h => compareSuffix_floor_ne_lt _ _ _ _ h.2

theorem floor_le_iff {v : Version} {major minor patch : Nat} :
    floor major minor patch ≤ v ↔ [major, minor, patch] ≤ v.numbers :=
  le_iff_le_iff_lt_iff_lt.mpr lt_floor_iff

/-- Against a full release the numbers decide alone if the other version is one, too. -/
theorem release_le_iff {v w : Version} (hv : v.pre = []) (hw : w.pre = []) (hb : w.build = []) :
    w ≤ v ↔ w.numbers ≤ v.numbers := by
  have hsuffix : compareSuffix v w ≠ .lt := by
    obtain ⟨a, b, c, pre, build⟩ := v
    obtain rfl : pre = [] := hv
    rw [compareSuffix, hw, hb]
    cases build <;> simp
  refine le_iff_le_iff_lt_iff_lt.mpr ?_
  rw [lt_iff, or_iff_left fun h => hsuffix h.2]

end Version

end JuliaReleases
