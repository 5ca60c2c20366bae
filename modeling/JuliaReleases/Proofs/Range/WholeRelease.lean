import JuliaReleases.Proofs.Range.Caret

/-!
# Ranges that go by whole releases

With prereleases included, a bound that an operator derives lies **between** two releases: below it
is everything up to some release with all its prereleases and builds, and above it everything else.
A range of such bounds cannot tell a version from the release that it belongs to, so it takes or
leaves the release as a whole (`JuliaReleases.Range.GoesByReleases`): `1.3` reaches the prereleases
of `1.3.0`, and `<1.3` does not.

A bound is derived where the operator means more than a comparison, or where numbers are left open;
the lower end of a hyphen range is always derived. `JuliaReleases.Term.Derived` says this, and
`JuliaReleases.Term.Derived.betweenReleases` goes back to the one case analysis of all operators,
`JuliaReleases.Term.bound_of_mem_bounds`: of the shapes of a bound only the version as it is written
does not lie between releases. What remains are full versions behind `^` and `~` and at the lower
end of a hyphen range, which are not compared as they are written either.
-/

namespace JuliaReleases

/-! ### Bounds between releases -/

/-- **A bound between two releases**: the lowest prerelease of a release keeps it together with
everything that belongs to it. -/
inductive Comparator.BetweenReleases : Comparator → Prop
  /-- Everything from a release on. -/
  | ge (a b c : Nat) : BetweenReleases ⟨.ge, .floor a b c⟩
  /-- Everything before a release. -/
  | lt (a b c : Nat) : BetweenReleases ⟨.lt, .floor a b c⟩

/-- Such a bound does not tell a version from its release. -/
theorem Comparator.BetweenReleases.admits_iff {bound : Comparator} (h : bound.BetweenReleases)
    (v : Version) : bound.Admits v ↔ bound.Admits v.release := by
  cases h with
  | ge a b c =>
    have hfloor : ∀ w : Version, Version.floor a b c ≤ w ↔ [a, b, c] ≤ w.numbers :=
      fun _ => Version.floor_le_iff
    exact (hfloor v).trans (hfloor v.release).symm
  | lt a b c =>
    have hfloor : ∀ w : Version, w < Version.floor a b c ↔ w.numbers < [a, b, c] :=
      fun _ => Version.lt_floor_iff
    exact (hfloor v).trans (hfloor v.release).symm

namespace PartialVersion

open Comparator (BetweenReleases)

variable {p : PartialVersion} {a b c : Nat}

/-- Whether a number is left open. -/
def IsPartial (p : PartialVersion) : Prop :=
  p.components.length < 3

theorem not_isPartial_full {pre : List PreIdentifier} : ¬ (full a b c pre).IsPartial :=
  lt_irrefl 3

/-- Without a prerelease, either a number is left open or a release is given. -/
theorem isPartial_or_eq_full (h : p.pre = []) : p.IsPartial ∨ ∃ a b c, p = full a b c [] := by
  cases p with
  | wildcard => exact .inl (show 0 < 3 by decide)
  | major a => exact .inl (show 1 < 3 by decide)
  | minor a b => exact .inl (show 2 < 3 by decide)
  | full a b c pre =>
    obtain rfl : pre = [] := h
    exact .inr ⟨a, b, c, rfl⟩

/-- Where a number is left open, every bound is derived. -/
theorem Bound.betweenReleases {bound : Comparator} (h : Bound .included p bound)
    (hp : p.IsPartial) : bound.BetweenReleases := by
  cases h with
  | written hfull => exact absurd (hfull ▸ hp) not_isPartial_full
  | lower => exact .ge _ _ _
  | upper => exact .lt _ _ _

theorem betweenReleases_caretLimit (a b c : Nat) : BetweenReleases ⟨.lt, caretLimit a b c⟩ := by
  obtain ⟨a', b', c', hlimit⟩ := exists_caretLimit_eq_floor a b c
  rw [hlimit]
  exact .lt a' b' c'

end PartialVersion

namespace Term

/-- **Whether a term is not compared as it is written.** -/
inductive Derived : Term → Prop
  /-- A version with a number left open, whatever the operator. -/
  | incomplete {op : Operator} {p : PartialVersion} : p.IsPartial → Derived ⟨.operand op, p⟩
  /-- The lower end of a hyphen range. -/
  | lowerEnd {p : PartialVersion} : p.pre = [] → Derived ⟨.lowerEnd, p⟩
  /-- A version behind `^`. -/
  | caret {p : PartialVersion} : p.pre = [] → Derived ⟨.operand .caret, p⟩
  /-- A version behind `~`. -/
  | tilde {p : PartialVersion} : p.pre = [] → Derived ⟨.operand .tilde, p⟩

variable {t : Term}

/-- **The bounds of a derived term lie between releases.** -/
theorem Derived.betweenReleases (h : t.Derived) (ht : ∀ n ∈ t.version.components, n ≤ maxNumber) :
    ∀ bound ∈ t.bounds .included, bound.BetweenReleases := by
  have hpartial : t.version.IsPartial → ∀ bound ∈ t.bounds .included, bound.BetweenReleases :=
    fun hp _ hbound => (bound_of_mem_bounds ht hbound).betweenReleases hp
  -- Only a release that is given in full is left, and its bounds are lowered.
  cases h with
  | incomplete hp => exact hpartial hp
  | lowerEnd hpre =>
    rcases PartialVersion.isPartial_or_eq_full hpre with hp | ⟨a, b, c, rfl⟩
    · exact hpartial hp
    · exact List.forall_mem_singleton.mpr (.ge a b c)
  | caret hpre =>
    rcases PartialVersion.isPartial_or_eq_full hpre with hp | ⟨a, b, c, rfl⟩
    · exact hpartial hp
    · exact List.forall_mem_cons.mpr ⟨.ge a b c,
        List.forall_mem_singleton.mpr (PartialVersion.betweenReleases_caretLimit a b c)⟩
  | tilde hpre =>
    rcases PartialVersion.isPartial_or_eq_full hpre with hp | ⟨a, b, c, rfl⟩
    · exact hpartial hp
    · exact List.forall_mem_cons.mpr ⟨.ge a b c,
        List.forall_mem_singleton.mpr (.lt a (nextNumber b) 0)⟩

end Term

/-! ### Ranges -/

namespace Range

/-- **Whether a range goes by whole releases**: a version is a member if the release that it belongs
to is one, and only then. -/
def GoesByReleases (r : Range) : Prop :=
  ∀ v : Version, v ∈ r ↔ v.release ∈ r

theorem goesByReleases_ofTerms {terms : List Term} (h : ∀ t ∈ terms, t.Derived)
    (hterms : ∀ t ∈ terms, ∀ n ∈ t.version.components, n ≤ maxNumber) :
    (ofTerms .included terms).GoesByReleases := by
  intro v
  rw [mem_ofTerms_iff_of_goesByBounds fun _ => rfl, mem_ofTerms_iff_of_goesByBounds fun _ => rfl]
  refine forall₂_congr fun t ht => forall₂_congr fun bound hbound => ?_
  exact ((h t ht).betweenReleases (hterms t ht) bound hbound).admits_iff v

/-- A word for a partial version without prerelease. -/
structure PlainWord (text : Text) (p : PartialVersion) : Prop where
  token : IsToken text
  read : PartialVersion.read text = .ok p
  pre : p.pre = []

namespace PlainWord

variable {text last : Text} {p q : PartialVersion} (h : PlainWord text p)
include h

theorem goesByReleases_operand {op : Operator} (hderived : Term.Derived ⟨.operand op, p⟩) :
    (ofTerms .included [⟨.operand op, p⟩]).GoesByReleases :=
  goesByReleases_ofTerms (List.forall_mem_singleton.mpr hderived)
    (List.forall_mem_singleton.mpr (PartialVersion.le_maxNumber_of_read h.read))

/-- A partial version without operator has all versions that agree with its numbers, if each of the
numbers has a next one. -/
theorem mem_bare_iff (hp : p.IsPartial) (hnumbers : ∀ n ∈ p.components, n < maxNumber)
    (v : Version) : v ∈ ofTerms .included [⟨.operand .eq, p⟩] ↔
      v.numbers.take p.components.length = p.components := by
  have hword : ReleaseWord text p := ⟨h.token, h.read, h.pre, hnumbers⟩
  exact (h.goesByReleases_operand (.incomplete hp) v).trans
    (hword.mem_operand_iff (v := v.release) rfl rfl .eq)

theorem goesByReleases_hyphen (hlast : PlainWord last q) (hq : q.IsPartial) :
    (ofTerms .included [⟨.lowerEnd, p⟩, ⟨.operand .le, q⟩]).GoesByReleases :=
  goesByReleases_ofTerms
    (List.forall_mem_cons.mpr ⟨.lowerEnd h.pre, List.forall_mem_singleton.mpr (.incomplete hq)⟩)
    (List.forall_mem_cons.mpr ⟨PartialVersion.le_maxNumber_of_read h.read,
      List.forall_mem_singleton.mpr (PartialVersion.le_maxNumber_of_read hlast.read)⟩)

end PlainWord

end Range

open Range in
/-- **With prereleases included, a derived range goes by whole releases**: a version is a member if
and only if the release that it belongs to is one. Derived is a partial version, bare or behind any
operator, any version without prerelease behind `^` or `~`, and a hyphen range of which the upper
end is partial. In particular a bare partial version reaches every prerelease that agrees with its
numbers. -/
theorem derived_range_goes_by_releases :
    (∀ text p, PlainWord text p → p.IsPartial →
      ∃ r, Range.read .included text = .ok r ∧ r.GoesByReleases ∧
        ((∀ n ∈ p.components, n < maxNumber) →
          ∀ v : Version, v ∈ r ↔ v.numbers.take p.components.length = p.components)) ∧
    (∀ text p (op : Operator), PlainWord text p → op = .caret ∨ op = .tilde ∨ p.IsPartial →
      ∃ r, Range.read .included (op.write ++ text) = .ok r ∧ r.GoesByReleases) ∧
    (∀ first last p q, PlainWord first p → PlainWord last q → q.IsPartial →
      ∃ r, Range.read .included (first ++ " - ".toList ++ last) = .ok r ∧ r.GoesByReleases) := by
  refine ⟨fun text p h hp => ?_, fun text p op h hop => ?_, fun first last p q h hlast hq => ?_⟩
  · exact ⟨_, h.token.read_bare h.read, h.goesByReleases_operand (.incomplete hp),
      h.mem_bare_iff hp⟩
  · refine ⟨_, h.token.read_operator h.read op, h.goesByReleases_operand ?_⟩
    rcases hop with rfl | rfl | hp
    · exact .caret h.pre
    · exact .tilde h.pre
    · exact .incomplete hp
  · exact ⟨_, h.token.read_hyphen h.read hlast.token hlast.read, h.goesByReleases_hyphen hlast hq⟩

open Range in
/-- Two numbers without an operator, a release behind `~`, and a hyphen range up to a major
number. -/
theorem derived_range_goes_by_releases_tilde :
    (PlainWord "1.3".toList (.minor 1 3) ∧ (PartialVersion.minor 1 3).IsPartial ∧
      (∀ n ∈ (PartialVersion.minor 1 3).components, n < maxNumber) ∧
      ∃ r, Range.read .included "1.3".toList = .ok r ∧ r.GoesByReleases ∧
        ∀ v : Version, v ∈ r ↔ v.numbers.take 2 = [1, 3]) ∧
    (PlainWord "v1.7.2".toList (.full 1 7 2 []) ∧
      ∃ r, Range.read .included "~v1.7.2".toList = .ok r ∧ r.GoesByReleases) ∧
    (PlainWord "2.x".toList (.major 2) ∧ (PartialVersion.major 2).IsPartial ∧
      ∃ r, Range.read .included "v1.7.2 - 2.x".toList = .ok r ∧ r.GoesByReleases) := by
  have hminor : PlainWord "1.3".toList (.minor 1 3) := ⟨⟨by decide, rfl⟩, rfl, rfl⟩
  have hfull : PlainWord "v1.7.2".toList (.full 1 7 2 []) := ⟨⟨by decide, rfl⟩, rfl, rfl⟩
  have hmajor : PlainWord "2.x".toList (.major 2) := ⟨⟨by decide, rfl⟩, rfl, rfl⟩
  have hpartial : (PartialVersion.minor 1 3).IsPartial := show 2 < 3 by decide
  have hpartial' : (PartialVersion.major 2).IsPartial := show 1 < 3 by decide
  have hnumbers : ∀ n ∈ (PartialVersion.minor 1 3).components, n < maxNumber := by decide
  obtain ⟨r, hr, hgoes, hmem⟩ := derived_range_goes_by_releases.1 _ _ hminor hpartial
  exact ⟨⟨hminor, hpartial, hnumbers, r, hr, hgoes, hmem hnumbers⟩, ⟨hfull,
      derived_range_goes_by_releases.2.1 _ _ .tilde hfull (.inr (.inl rfl))⟩, hmajor, hpartial',
    derived_range_goes_by_releases.2.2 _ _ _ _ hfull hmajor hpartial'⟩

end JuliaReleases
