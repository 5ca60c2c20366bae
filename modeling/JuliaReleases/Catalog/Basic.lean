import JuliaReleases.Platform
import JuliaReleases.Request

/-!
# The release catalog

The catalog lists every published release by its tag, in the order of publication, with the binaries
that were built of it. `JuliaReleases.Catalog.insert` keeps one record per tag: a later record takes
the place of an earlier one. `JuliaReleases.Catalog.binary?` finds the binary for a platform;
nightly builds are not in the catalog, and have none.
-/

namespace JuliaReleases

/-- A file that can be downloaded. -/
structure Binary where
  /-- The catalog name of the operating system. -/
  os : Text
  /-- The catalog name of the architecture. -/
  arch : Text
  url : Text
  /-- The checksum of the file. -/
  sha256 : Text
  /-- The extension of the file's name. -/
  extension : Text := []
  kind : Option Text := none
  triplet : Option Text := none
  /-- The size of the file in bytes. -/
  size : Option Nat := none
  version : Option Text := none
deriving DecidableEq

/-- What was published for one tag. -/
structure Release where
  /-- Whether it is meant for everyday use. -/
  stable : Bool := false
  files : List Binary := []
deriving DecidableEq

/-- The published releases with their tags, in order. -/
structure Catalog where
  entries : List (Text × Release) := []
deriving DecidableEq

/-- Why the catalog has no answer. -/
inductive CatalogError where
  /-- The catalog has no such tag. -/
  | unknownVersion (version : Text)
  /-- The release has no binary for the platform; system and architecture have catalog names. -/
  | noBinary (version os arch : Text)
  /-- There is nothing for the platform. -/
  | platform (e : PlatformError)
deriving DecidableEq

/-- The wording of the error. -/
def CatalogError.message : CatalogError → Text
  | .unknownVersion version =>
    "Version ".toList ++ version ++ " is not listed in the release catalog".toList
  | .noBinary version os arch =>
    "Could not find ".toList ++ arch ++ '/' :: version ++ " binaries for ".toList ++ os
  | .platform e => e.message

namespace Catalog

/-- All tags, in the order of the catalog. -/
def versions (c : Catalog) : List Text :=
  c.entries.map Prod.fst

/-- The record of a tag. -/
def get? (c : Catalog) (tag : Text) : Option Release :=
  c.entries.lookup tag

/-- Adds the record of a tag at the end, or puts it in the place of the record that the tag has. -/
def insert (c : Catalog) (tag : Text) (release : Release) : Catalog :=
  if c.versions.contains tag then
    ⟨c.entries.map fun entry => if entry.1 = tag then (tag, release) else entry⟩
  else ⟨c.entries ++ [(tag, release)]⟩

/-- The catalog of some records, of which later ones count. -/
def ofEntries (entries : List (Text × Release)) : Catalog :=
  entries.foldl (fun c entry => c.insert entry.1 entry.2) {}

/-- Whether a binary was built for a platform. -/
def IsFor (platform : Platform) (binary : Binary) : Prop :=
  binary.os = platform.os.catalogName ∧ binary.arch = platform.arch.catalogName

instance (platform : Platform) (binary : Binary) : Decidable (IsFor platform binary) :=
  inferInstanceAs (Decidable (_ ∧ _))

/-- **The binary of a version for a platform**: the first one that fits. A nightly build has none
in the catalog. -/
def binary? (c : Catalog) (version : Text) (platform : Platform) :
    Except CatalogError (Option Binary) :=
  if Nightly.IsName version then .ok none
  else
    match c.get? version with
    | none => .error (.unknownVersion version)
    | some release =>
      match release.files.find? (IsFor platform) with
      | some binary => .ok (some binary)
      | none =>
        .error (.noBinary version platform.os.catalogName platform.arch.catalogName)

end Catalog

end JuliaReleases
