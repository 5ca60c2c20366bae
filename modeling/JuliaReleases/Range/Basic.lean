import JuliaReleases.Version.Basic

/-!
# Ranges of versions

A `JuliaReleases.Range` is an alternative of arms, and a `JuliaReleases.Arm` a conjunction of
comparators such as `>=1.6.0` or `<2.0.0-0`. Membership, `v ∈ range`, is all that the rest of the
library asks of a range, and `JuliaReleases.Range.greatest?` and `JuliaReleases.Range.least?` pick
members of a list.

## Prereleases

Most users of a range do not want prereleases. Under `PrereleasePolicy.named` a prerelease belongs
to an arm only if, besides meeting all comparators, it is **named**: some comparator of the arm
carries a prerelease of the same `major.minor.patch`. Under `PrereleasePolicy.included` it is
treated like any other version.
-/

namespace JuliaReleases

/-- How a range treats prereleases. -/
inductive PrereleasePolicy where
  /-- A prerelease is a member only where the range names one of the same release. -/
  | named
  /-- Every prerelease within the bounds is a member. -/
  | included
deriving DecidableEq

/-- How a comparator relates a version to its bound. -/
inductive Relation where
  | eq
  | gt
  | ge
  | lt
  | le
deriving DecidableEq

/-- Whether `v` stands in the relation to the bound `w`. -/
def Relation.Holds (r : Relation) (v w : Version) : Prop :=
  match r with
  | .eq => v = w
  | .gt => w < v
  | .ge => w ≤ v
  | .lt => v < w
  | .le => v ≤ w

instance (r : Relation) (v w : Version) : Decidable (r.Holds v w) := by
  cases r <;> unfold Relation.Holds <;> infer_instance

/-- A single bound. -/
structure Comparator where
  relation : Relation
  version : Version
deriving DecidableEq

/-- Whether a version meets the bound. -/
def Comparator.Admits (c : Comparator) (v : Version) : Prop :=
  c.relation.Holds v c.version

instance (c : Comparator) (v : Version) : Decidable (c.Admits v) :=
  inferInstanceAs (Decidable (c.relation.Holds v c.version))

/-- A conjunction of bounds; an arm without bounds admits every release. -/
structure Arm where
  comparators : List Comparator
deriving DecidableEq

namespace Arm

/-- Whether the arm has a bound that is a prerelease of the release of `v`. -/
def Names (arm : Arm) (v : Version) : Prop :=
  ∃ c ∈ arm.comparators, c.version.IsPrerelease ∧ c.version.release = v.release

instance (arm : Arm) (v : Version) : Decidable (arm.Names v) :=
  inferInstanceAs (Decidable (∃ c ∈ arm.comparators, _ ∧ _))

/-- Whether a version belongs to the arm: it meets every bound and, if it is a prerelease, the arm
names it or prereleases are included. -/
def Admits (policy : PrereleasePolicy) (arm : Arm) (v : Version) : Prop :=
  (∀ c ∈ arm.comparators, c.Admits v) ∧ (v.IsPrerelease → policy = .named → arm.Names v)

instance (policy : PrereleasePolicy) (arm : Arm) (v : Version) : Decidable (arm.Admits policy v) :=
  inferInstanceAs (Decidable ((∀ c ∈ arm.comparators, c.Admits v) ∧ _))

end Arm

/-- A range of versions: its arms, of which one has to admit a version, and its way with
prereleases. -/
structure Range where
  arms : List Arm
  policy : PrereleasePolicy
deriving DecidableEq

namespace Range

instance : Membership Version Range where
  mem r v := ∃ arm ∈ r.arms, arm.Admits r.policy v

instance (r : Range) (v : Version) : Decidable (v ∈ r) :=
  inferInstanceAs (Decidable (∃ arm ∈ r.arms, arm.Admits r.policy v))

/-- The range of every release. -/
def any : Range :=
  { arms := [⟨[]⟩], policy := .named }

/-- The greatest member of the range among some versions. -/
def greatest? (r : Range) (versions : List Version) : Option Version :=
  (versions.filter (· ∈ r)).max?

/-- The least member of the range among some versions. -/
def least? (r : Range) (versions : List Version) : Option Version :=
  (versions.filter (· ∈ r)).min?

end Range

end JuliaReleases
