import JuliaReleases.Version.Identifier

/-!
# Versions and their order

A `JuliaReleases.Version` has three numbers, perhaps a prerelease and perhaps build metadata. The
order compares these parts in this order and is **total**: versions that differ in their build
metadata alone are different, and one of them is the smaller. Two points are easily missed:

* a version without prerelease comes after every prerelease of it, so the empty list of prerelease
  identifiers is the greatest;
* a version without build metadata comes before every build of it, so there the empty list is the
  least.
-/

namespace JuliaReleases

/-- A version: three numbers, a prerelease and build metadata. -/
structure Version where
  major : Nat
  minor : Nat
  patch : Nat
  /-- The identifiers of the prerelease; a full release has none. -/
  pre : List PreIdentifier := []
  /-- The identifiers of the build metadata, most often none. -/
  build : List BuildIdentifier := []
deriving DecidableEq

namespace Version

/-- The order of versions: by the numbers, then the prerelease, where none is greatest, then the
build metadata, where none is least. -/
instance : Ord Version where
  compare := compareLex (compareOn fun v => v.major)
    (compareLex (compareOn fun v => v.minor)
      (compareLex (compareOn fun v => v.patch)
        (compareLex (compareOn fun v => v.pre.isEmpty)
          (compareLex (compareOn fun v => v.pre) (compareOn fun v => v.build)))))

instance : LT Version := ltOfOrd
instance : LE Version := leOfOrd
instance : Max Version := maxOfLe
instance : Min Version := minOfLe

/-- The full release that a version belongs to: the same numbers, and nothing behind them. -/
def release (v : Version) : Version :=
  { major := v.major, minor := v.minor, patch := v.patch }

/-- Whether a version is a prerelease. -/
def IsPrerelease (v : Version) : Prop :=
  v.pre ≠ []

instance (v : Version) : Decidable v.IsPrerelease :=
  inferInstanceAs (Decidable (_ ≠ _))

/-- The lowest prerelease of a release, `-0`. Nothing of the release comes before it, so it serves
as an upper bound that keeps the whole release out. -/
def floor (major minor patch : Nat) : Version :=
  { major, minor, patch, pre := [.lowest] }

end Version

end JuliaReleases
