import JuliaReleases.Catalog.Basic

/-!
# Where to download a version

A release is downloaded from the address that its binary has in the catalog. Nightly builds lie in a
bucket of their own, sorted by operating system, architecture and, if they belong to a release
branch, the branch; not every platform has them.
-/

namespace JuliaReleases

namespace Nightly

/-- The bucket of the nightly builds. -/
def bucket : Text :=
  "https://julialangnightlies-s3.julialang.org/bin".toList

/-- The name of an architecture in the bucket. -/
def archDirectory : Arch → Text
  | .x86 => "x86".toList
  | .x64 => "x64".toList
  | .aarch64 => "aarch64".toList

/-- The name of the newest nightly build for a platform. -/
def fileName (platform : Platform) : Except CatalogError Text :=
  match platform.os, platform.arch with
  | .windows, .x64 => .ok "julia-latest-win64.exe".toList
  | .windows, .x86 => .ok "julia-latest-win32.exe".toList
  | .macOs, .x64 => .ok "julia-latest-mac64.dmg".toList
  | .macOs, .aarch64 => .ok "julia-latest-macaarch64.dmg".toList
  | .linux, .x64 => .ok "julia-latest-linux64.tar.gz".toList
  | .linux, .x86 => .ok "julia-latest-linux32.tar.gz".toList
  | .linux, .aarch64 => .ok "julia-latest-linuxaarch64.tar.gz".toList
  | .macOs, .x86 => .error (.platform ⟨"32-bit Julia is not available on macOS".toList⟩)
  | .windows, .aarch64 =>
    .error (.platform ⟨"nightly Julia is not built for Windows on aarch64".toList⟩)

/-- The directory of a branch in the bucket; the development branch has none of its own. -/
def branchDirectory : Option (Nat × Nat) → Text
  | none => []
  | some (major, minor) => '/' :: Decimal.write major ++ '.' :: Decimal.write minor

/-- The address of the newest nightly build of a branch for a platform. -/
def address (platform : Platform) (branch : Option (Nat × Nat)) : Except CatalogError Text := do
  let name ← fileName platform
  return bucket ++ '/' :: platform.os.catalogName ++ '/' :: archDirectory platform.arch ++
    branchDirectory branch ++ '/' :: name

end Nightly

/-- **The address to download a version from**, given its binary in the catalog. A nightly build
that is named as such does not need one. -/
def downloadAddress (binary : Option Binary) (version : Text) (platform : Platform) :
    Except CatalogError Text :=
  match Nightly.branch? version with
  | some branch => Nightly.address platform (some branch)
  | none =>
    if version = Nightly.word then Nightly.address platform none
    else
      match binary with
      | some binary => .ok binary.url
      | none => .error (.unknownVersion version)

end JuliaReleases
