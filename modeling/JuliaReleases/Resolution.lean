import JuliaReleases.CompatRange.Basic
import JuliaReleases.Request
import JuliaReleases.Settings.Basic

/-!
# Resolution of a request

`JuliaReleases.resolve` answers a request with one version. Exact versions and nightly builds are
their own answers. Every other request selects from the versions that the release tags name:

* `min` – the least one that some arm of the compat range admits;
* `lts` – the greatest full release of the line with long-term support;
* `pre` – the greatest version of the current major line;
* a range – its greatest member.

The policy on prereleases concerns ranges and compat arms only. A request that is no range selects
from nothing.
-/

namespace JuliaReleases

/-- Why a request has no answer; the request is repeated as it was given. -/
inductive ResolveError where
  /-- The least allowed release was asked for, and no range is allowed. -/
  | missingCompat (request : Text)
  /-- No version fits. -/
  | noMatch (request : Text)
deriving DecidableEq

/-- The wording of the error. -/
def ResolveError.message : ResolveError → Text
  | .missingCompat request =>
    "Unable to use version \"".toList ++ request ++
      "\" when the Julia project file does not specify a compat for Julia".toList
  | .noMatch request => "Could not find a Julia version that matches ".toList ++ request

namespace Resolution

/-- The least version that an arm of a compat range admits. An arm that is no range admits none. -/
def leastOfArm? (policy : PrereleasePolicy) (versions : List Version) (arm : Text) :
    Option Version :=
  match Range.read policy arm with
  | .ok range => range.least? versions
  | .error _ => none

/-- The least version that a compat range admits. -/
def least? (policy : PrereleasePolicy) (compat : CompatRange) (versions : List Version) :
    Option Version :=
  (compat.arms.filterMap (leastOfArm? policy versions)).min?

/-- The greatest full release of the line with long-term support. -/
def lts? (settings : Settings) (versions : List Version) : Option Version :=
  match settings.ltsLine? with
  | some (major, minor) =>
    (versions.filter fun v => v.major = major ∧ v.minor = minor ∧ ¬ v.IsPrerelease).max?
  | none => none

/-- The greatest version of the current major line. -/
def newest? (settings : Settings) (versions : List Version) : Option Version :=
  (versions.filter fun v => v.major = settings.currentMajor).max?

/-- The greatest member of a range, given by its text. -/
def greatest? (policy : PrereleasePolicy) (range : Text) (versions : List Version) :
    Option Version :=
  match Range.read policy range with
  | .ok range => range.greatest? versions
  | .error _ => none

end Resolution

/-- The answer that a selected version makes, or that there is none. -/
def answer (request : Text) : Option Version → Except ResolveError Text
  | some version => .ok version.write
  | none => .error (.noMatch request)

open Resolution in
/-- **Resolves a request** against the published release tags and the compat range of the project,
if it has one. -/
def resolve (settings : Settings) (tags : List Text) (request : Text) (policy : PrereleasePolicy)
    (compat : Option CompatRange) : Except ResolveError Text :=
  let versions := Tag.versions tags
  match Request.read request with
  | .exact version => .ok version
  | .nightly name => .ok name
  | .min =>
    match compat with
    | none => .error (.missingCompat request)
    | some compat =>
      if compat.isEmpty then .error (.missingCompat request)
      else answer request (least? policy compat versions)
  | .lts => answer request (lts? settings versions)
  | .pre => answer request (newest? settings versions)
  | .range range => answer request (greatest? policy range versions)

end JuliaReleases
