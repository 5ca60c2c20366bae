import Mathlib.Data.List.Forall2
import JuliaReleases.CompatRange.Error
import JuliaReleases.Proofs.Range.Term
import JuliaReleases.Proofs.Version.Order

/-!
# What including prereleases does to a range

The policy on prereleases acts in two places. When a range is read, a derived lower bound starts at
the lowest prerelease `-0` if prereleases are included; and when a version is looked up, a
prerelease has to be named unless they are. This file shows that both only let more in, and that a
full release does not notice either.

* What becomes of a single bound is `JuliaReleases.Comparator.Lowered`, and
  `JuliaReleases.Term.lowered_bounds` goes through the operators: bound by bound, this is all that
  including prereleases does.
* Whether a text is a range does not depend on the policy (`JuliaReleases.Range.exists_read_iff`),
  and neither does the fault that is reported, because the terms of the range are read first.
* `JuliaReleases.Range.widens_ofText` puts the two together.
-/

namespace JuliaReleases

/-! ### Bounds -/

namespace Comparator

/-- What becomes of a bound when prereleases are included: it stays, or it is a lower bound without
prerelease and starts at the lowest prerelease instead. -/
inductive Lowered : Comparator → Comparator → Prop
  /-- The bound stays. -/
  | same (bound : Comparator) : Lowered bound bound
  /-- The bound starts at the lowest prerelease. -/
  | floor (a b c : Nat) :
      Lowered ⟨.ge, { major := a, minor := b, patch := c }⟩ ⟨.ge, .floor a b c⟩

variable {bound bound' : Comparator} {bounds bounds' : List Comparator} {v : Version}

theorem Lowered.admits (h : Lowered bound bound') (hv : bound.Admits v) : bound'.Admits v := by
  cases h with
  | same => exact hv
  | floor a b c =>
    have hle : Version.floor a b c ≤ { major := a, minor := b, patch := c } :=
      Version.floor_le_iff.mpr le_rfl
    exact hle.trans hv

/-- A full release does not notice. -/
theorem Lowered.admits_iff (h : Lowered bound bound') (hv : v.pre = []) :
    bound'.Admits v ↔ bound.Admits v := by
  cases h with
  | same => rfl
  | floor a b c =>
    have hrelease : ({ major := a, minor := b, patch := c } : Version) ≤ v ↔
        [a, b, c] ≤ v.numbers :=
      Version.release_le_iff hv rfl rfl
    exact Version.floor_le_iff.trans hrelease.symm

theorem forall_admits_of_lowered (h : List.Forall₂ Lowered bounds bounds')
    (hv : ∀ bound ∈ bounds, bound.Admits v) : ∀ bound' ∈ bounds', bound'.Admits v := by
  induction h with
  | nil => simp
  | cons hbound _ ih =>
    rw [List.forall_mem_cons] at hv ⊢
    exact ⟨hbound.admits hv.1, ih hv.2⟩

theorem forall_admits_iff_of_lowered (h : List.Forall₂ Lowered bounds bounds')
    (hv : v.pre = []) :
    (∀ bound' ∈ bounds', bound'.Admits v) ↔ ∀ bound ∈ bounds, bound.Admits v := by
  induction h with
  | nil => simp
  | cons hbound _ ih =>
    rw [List.forall_mem_cons, List.forall_mem_cons, hbound.admits_iff hv, ih]

end Comparator

/-! ### The bounds of an operator -/

namespace PartialVersion

open Comparator (Lowered)

variable (p : PartialVersion) (a b c : Nat) (rest : List Comparator)

theorem lowered_refl (bounds : List Comparator) : List.Forall₂ Lowered bounds bounds :=
  List.forall₂_same.mpr fun bound _ => .same bound

theorem lowered_start : List.Forall₂ Lowered (⟨.ge, start .named a b c⟩ :: rest)
    (⟨.ge, start .included a b c⟩ :: rest) :=
  .cons (.floor a b c) (lowered_refl rest)

theorem lowered_startFull (pre : List PreIdentifier) :
    List.Forall₂ Lowered (⟨.ge, startFull .named a b c pre⟩ :: rest)
      (⟨.ge, startFull .included a b c pre⟩ :: rest) := by
  unfold startFull
  split
  · exact lowered_start a b c rest
  · exact lowered_refl _

theorem lowered_exact : List.Forall₂ Lowered (p.exact .named) (p.exact .included) := by
  cases p with
  | wildcard => exact .nil
  | major a => exact lowered_start a 0 0 _
  | minor a b => exact lowered_start a b 0 _
  | full a b c pre => exact lowered_refl _

theorem lowered_caret : List.Forall₂ Lowered (p.caret .named) (p.caret .included) := by
  cases p with
  | wildcard => exact .nil
  | major a => exact lowered_exact (.major a)
  | minor a b =>
    cases a with
    | zero => exact lowered_exact (.minor 0 b)
    | succ a => exact lowered_start (a + 1) b 0 _
  | full a b c pre => exact lowered_startFull a b c _ pre

theorem lowered_tilde : List.Forall₂ Lowered (p.tilde .named) (p.tilde .included) := by
  cases p with
  | wildcard => exact .nil
  | major a => exact lowered_exact (.major a)
  | minor a b => exact lowered_exact (.minor a b)
  | full a b c pre => exact lowered_startFull a b c _ pre

theorem lowered_greaterThan :
    List.Forall₂ Lowered (p.greaterThan .named) (p.greaterThan .included) := by
  cases p with
  | wildcard => exact lowered_refl _
  | major a => exact lowered_start (nextNumber a) 0 0 _
  | minor a b => exact lowered_start a (nextNumber b) 0 _
  | full a b c pre => exact lowered_refl _

theorem lowered_lowerEnd : List.Forall₂ Lowered (p.lowerEnd .named) (p.lowerEnd .included) := by
  cases p with
  | wildcard => exact .nil
  | major a => exact lowered_start a 0 0 _
  | minor a b => exact lowered_start a b 0 _
  | full a b c pre => exact lowered_startFull a b c _ pre

theorem lowered_atLeast : List.Forall₂ Lowered (p.atLeast .named) (p.atLeast .included) := by
  cases p with
  | wildcard => exact .nil
  | major a => exact lowered_lowerEnd (.major a)
  | minor a b => exact lowered_lowerEnd (.minor a b)
  | full a b c pre => exact lowered_refl _

end PartialVersion

/-- **Bound by bound, lower bounds start lower**, whatever the operator. -/
theorem Term.lowered_bounds (t : Term) :
    List.Forall₂ Comparator.Lowered (t.bounds .named) (t.bounds .included) := by
  obtain ⟨role, p⟩ := t
  cases role with
  | lowerEnd => exact p.lowered_lowerEnd
  | operand op =>
    cases op with
    | ge => exact p.lowered_atLeast
    | gt => exact p.lowered_greaterThan
    | eq => exact p.lowered_exact
    | caret => exact p.lowered_caret
    | tilde => exact p.lowered_tilde
    | le | lt => exact PartialVersion.lowered_refl _

/-! ### Arms and ranges -/

namespace Arm

variable {terms : List Term} {v : Version}

theorem lowered_ofTerms (terms : List Term) : List.Forall₂ Comparator.Lowered
    (ofTerms .named terms).comparators (ofTerms .included terms).comparators := by
  induction terms with
  | nil => exact .nil
  | cons t terms ih => exact List.rel_append t.lowered_bounds ih

theorem admits_included (h : (ofTerms .named terms).Admits .named v) :
    (ofTerms .included terms).Admits .included v :=
  ⟨Comparator.forall_admits_of_lowered (lowered_ofTerms terms) h.1,
    fun _ hpolicy => PrereleasePolicy.noConfusion hpolicy⟩

/-- A full release needs no name, so only the bounds count. -/
theorem admits_included_iff (hv : v.pre = []) : (ofTerms .included terms).Admits .included v ↔
    (ofTerms .named terms).Admits .named v := by
  have hnamed : ∀ {policy : PrereleasePolicy} {arm : Arm}, v.IsPrerelease → policy = .named →
      arm.Names v := fun hpre => absurd hv hpre
  exact and_congr (Comparator.forall_admits_iff_of_lowered (lowered_ofTerms terms) hv)
    (iff_of_true hnamed hnamed)

end Arm

namespace Range

variable {text : Text} {v : Version}

/-- Whether a text is a range does not depend on the policy. -/
theorem exists_read_iff (policy policy' : PrereleasePolicy) :
    (∃ r, Range.read policy text = .ok r) ↔ ∃ r, Range.read policy' text = .ok r := by
  rw [read_eq, read_eq]
  cases readTerms text <;> simp [Functor.map, Except.map]

/-- The members of a range whose arms are read already. -/
theorem mem_map_ofTerms_iff {policy : PrereleasePolicy} {arms : List (List Term)} :
    v ∈ (⟨arms.map (Arm.ofTerms policy), policy⟩ : Range) ↔
      ∃ terms ∈ arms, (Arm.ofTerms policy terms).Admits policy v := by
  constructor
  · rintro ⟨arm, harm, hadmits⟩
    obtain ⟨terms, hterms, rfl⟩ := List.mem_map.mp harm
    exact ⟨terms, hterms, hadmits⟩
  · rintro ⟨terms, hterms, hadmits⟩
    exact ⟨_, List.mem_map_of_mem hterms, hadmits⟩

/-- How the ranges that one text stands for compare, without prereleases and with them: either both
have the same fault, or the second has every member of the first and no other full release. -/
inductive Widens : Except RangeError Range → Except RangeError Range → Prop
  /-- The text is no range. -/
  | error (e : RangeError) : Widens (.error e) (.error e)
  /-- The text is a range. -/
  | ok {named included : Range} (mem : ∀ v ∈ named, v ∈ included)
      (mem_iff : ∀ v : Version, ¬ v.IsPrerelease → (v ∈ included ↔ v ∈ named)) :
      Widens (.ok named) (.ok included)

/-- **Including prereleases widens a range**, and changes nothing for full releases. -/
theorem widens_ofText (text : Text) : Widens (ofText .named text) (ofText .included text) := by
  rw [ofText, ofText, read_eq, read_eq]
  cases readTerms text with
  | error fault => exact .error ⟨text, .range fault⟩
  | ok arms =>
    refine .ok (fun v hv => ?_) fun v hv => ?_
    · rw [mem_map_ofTerms_iff] at hv ⊢
      obtain ⟨terms, hterms, hadmits⟩ := hv
      exact ⟨terms, hterms, Arm.admits_included hadmits⟩
    · have hpre : v.pre = [] := not_not.mp hv
      rw [mem_map_ofTerms_iff, mem_map_ofTerms_iff]
      simp only [Arm.admits_included_iff hpre]

end Range

end JuliaReleases
