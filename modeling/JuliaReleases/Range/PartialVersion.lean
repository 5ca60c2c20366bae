import JuliaReleases.Range.Basic
import JuliaReleases.Range.Fault
import JuliaReleases.Version.Tag

/-!
# Partial versions and the bounds they stand for

In a range a version may be incomplete: `1`, `1.2`, `1.x`, `*`. A `JuliaReleases.PartialVersion` has
as many numbers as are written before the first wildcard, and a prerelease only behind all three,
so nothing else can be expressed. `JuliaReleases.PartialVersion.read` reads one.

An operator in front of a partial version stands for one or two plain bounds,
`JuliaReleases.PartialVersion.bounds`. Two conventions decide what happens at the edges:

* an **upper** bound that excludes a release excludes its prereleases, too: it is written with the
  lowest prerelease, as in `<2.0.0-0`;
* a **lower** bound that is derived from fewer numbers than it has, or from an operator that means
  more than a comparison, starts at that lowest prerelease when prereleases are included
  (`JuliaReleases.PartialVersion.start`).
-/

namespace JuliaReleases

/-- A version of which trailing numbers may be left open. -/
inductive PartialVersion where
  /-- No number is given. -/
  | wildcard
  /-- The major number is given. -/
  | major (major : Nat)
  /-- Major and minor number are given. -/
  | minor (major minor : Nat)
  /-- All numbers are given, and perhaps a prerelease. -/
  | full (major minor patch : Nat) (pre : List PreIdentifier)
deriving DecidableEq

namespace PartialVersion

/-! ### Reading -/

/-- Reads one component: a number, or `none` for a wildcard. -/
def readComponent (component : Text) : Except RangeFault (Option Nat) :=
  if component = ['x'] ∨ component = ['X'] ∨ component = ['*'] then .ok none
  else if Decimal.isNumeral component = false then .error (.notANumber component)
  else if Decimal.hasLeadingZero component then .error (.leadingZero component)
  else
    match Decimal.read? component with
    | some n => .ok (some n)
    | none => .error (.numberTooLarge component)

/-- The partial version with some numbers; what follows a wildcard is a wildcard. -/
def ofComponents : List (Option Nat) → PartialVersion
  | some a :: some b :: some c :: _ => .full a b c []
  | some a :: some b :: _ => .minor a b
  | some a :: _ => .major a
  | _ => .wildcard

/-- Gives a prerelease to a partial version, which has to be full. The text is the one that both
were written in. -/
def withPrerelease (version : Text) (pre : Option Text) (p : PartialVersion) :
    Except RangeFault PartialVersion :=
  match pre, p with
  | none, p => .ok p
  | some [], _ => .error (.emptyPrerelease version)
  | some pre, .full a b c _ =>
    match readPrerelease pre with
    | .ok pre => .ok (.full a b c pre)
    | .error fault => .error (.prerelease version fault)
  | some _, _ => .error (.partialPrerelease version)

/-- **Reads a partial version.** One `v` may stand in front. What follows the first `+` is build
metadata: it must not be empty, and plays no role. What follows the first `-` before that is a
prerelease. -/
def read (text : Text) : Except RangeFault PartialVersion :=
  let text := Tag.stripPrefix text
  if text = [] then .error .missingVersion
  else
    let (version, build) := Text.cut '+' text
    if build = some [] then .error (.emptyBuild text)
    else
      let (numbers, pre) := Text.cut '-' version
      let components := numbers.splitOn '.'
      if components.length > 3 then .error (.extraComponent version)
      else do
        let components ← components.mapM readComponent
        withPrerelease version pre (ofComponents components)

/-! ### The bounds of an operator -/

/-- Where a derived lower bound starts: at the release, or at its lowest prerelease when
prereleases are included. -/
def start (policy : PrereleasePolicy) (major minor patch : Nat) : Version :=
  match policy with
  | .named => { major, minor, patch }
  | .included => Version.floor major minor patch

/-- Where a derived lower bound starts for a full version: a prerelease that is written stays. -/
def startFull (policy : PrereleasePolicy) (major minor patch : Nat) (pre : List PreIdentifier) :
    Version :=
  if pre = [] then start policy major minor patch else { major, minor, patch, pre }

/-- The bounds that no version meets. -/
def nothing : List Comparator :=
  [⟨.lt, Version.floor 0 0 0⟩]

/-- The versions that agree with the numbers given; a full version is meant literally. -/
def exact (policy : PrereleasePolicy) : PartialVersion → List Comparator
  | wildcard => []
  | major a => [⟨.ge, start policy a 0 0⟩, ⟨.lt, .floor (nextNumber a) 0 0⟩]
  | minor a b => [⟨.ge, start policy a b 0⟩, ⟨.lt, .floor a (nextNumber b) 0⟩]
  | full a b c pre => [⟨.eq, { major := a, minor := b, patch := c, pre }⟩]

/-- The least release that a change to the first number other than zero leads to; if all are zero,
to the last. -/
def caretLimit (a b c : Nat) : Version :=
  match a, b with
  | 0, 0 => .floor 0 0 (nextNumber c)
  | 0, b => .floor 0 (nextNumber b) 0
  | a, _ => .floor (nextNumber a) 0 0

/-- From the version on, as long as the first number other than zero stays. -/
def caret (policy : PrereleasePolicy) : PartialVersion → List Comparator
  | wildcard => []
  | major a => exact policy (major a)
  | minor 0 b => exact policy (minor 0 b)
  | minor a b => [⟨.ge, start policy a b 0⟩, ⟨.lt, .floor (nextNumber a) 0 0⟩]
  | full a b c pre => [⟨.ge, startFull policy a b c pre⟩, ⟨.lt, caretLimit a b c⟩]

/-- From the version on, as long as major and minor number stay. -/
def tilde (policy : PrereleasePolicy) : PartialVersion → List Comparator
  | full a b c pre => [⟨.ge, startFull policy a b c pre⟩, ⟨.lt, .floor a (nextNumber b) 0⟩]
  | p => exact policy p

/-- Behind every version that agrees with the numbers given. -/
def greaterThan (policy : PrereleasePolicy) : PartialVersion → List Comparator
  | wildcard => nothing
  | major a => [⟨.ge, start policy (nextNumber a) 0 0⟩]
  | minor a b => [⟨.ge, start policy a (nextNumber b) 0⟩]
  | full a b c pre => [⟨.gt, { major := a, minor := b, patch := c, pre }⟩]

/-- The lower end of a hyphen range: from the first version that agrees with the numbers given. -/
def lowerEnd (policy : PrereleasePolicy) : PartialVersion → List Comparator
  | wildcard => []
  | major a => [⟨.ge, start policy a 0 0⟩]
  | minor a b => [⟨.ge, start policy a b 0⟩]
  | full a b c pre => [⟨.ge, startFull policy a b c pre⟩]

/-- From the first version that agrees with the numbers given; a full version is meant literally. -/
def atLeast (policy : PrereleasePolicy) : PartialVersion → List Comparator
  | full a b c pre => [⟨.ge, { major := a, minor := b, patch := c, pre }⟩]
  | p => lowerEnd policy p

/-- Before every version that agrees with the numbers given. -/
def lessThan : PartialVersion → List Comparator
  | wildcard => nothing
  | major a => [⟨.lt, .floor a 0 0⟩]
  | minor a b => [⟨.lt, .floor a b 0⟩]
  | full a b c pre => [⟨.lt, { major := a, minor := b, patch := c, pre }⟩]

/-- Up to the last version that agrees with the numbers given; the upper end of a hyphen range. -/
def atMost : PartialVersion → List Comparator
  | wildcard => []
  | major a => [⟨.lt, .floor (nextNumber a) 0 0⟩]
  | minor a b => [⟨.lt, .floor a (nextNumber b) 0⟩]
  | full a b c pre => [⟨.le, { major := a, minor := b, patch := c, pre }⟩]

/-- **The bounds that an operator in front of a partial version stands for.** -/
def bounds (policy : PrereleasePolicy) (p : PartialVersion) : Operator → List Comparator
  | .ge => p.atLeast policy
  | .le => p.atMost
  | .gt => p.greaterThan policy
  | .lt => p.lessThan
  | .eq => p.exact policy
  | .caret => p.caret policy
  | .tilde => p.tilde policy

end PartialVersion

end JuliaReleases
