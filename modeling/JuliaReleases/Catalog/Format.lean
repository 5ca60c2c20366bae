import JuliaReleases.Catalog.Basic
import JuliaReleases.Json.Printer
import JuliaReleases.Json.Typed

/-!
# The catalog as a JSON document

The document is an object with the tags as its keys. A release is a record of `stable` and `files`,
both of which may be missing; a binary is a record of nine fields, of which the first four must be
there. `JuliaReleases.Catalog.read` reads the document and `JuliaReleases.Catalog.write` prints it,
with all fields in their order and `null` for what is absent.
-/

namespace JuliaReleases

open Json (Reader Value)

/-! ### Reading -/

/-- The fields of a binary as far as they have been read. A field that may be `null` holds what
was read for it. -/
structure Binary.Draft where
  os : Option Text := none
  arch : Option Text := none
  url : Option Text := none
  sha256 : Option Text := none
  extension : Option Text := none
  kind : Option (Option Text) := none
  triplet : Option (Option Text) := none
  size : Option (Option Nat) := none
  version : Option (Option Text) := none

namespace Binary

open Json in
/-- The fields of a binary, in their order. -/
def fields : List (Json.Field Draft) :=
  [.of "os" readText (·.os) fun d a => { d with os := some a },
    .of "arch" readText (·.arch) fun d a => { d with arch := some a },
    .of "url" readText (·.url) fun d a => { d with url := some a },
    .of "sha256" readText (·.sha256) fun d a => { d with sha256 := some a },
    .of "extension" readText (·.extension) fun d a => { d with extension := some a },
    .of "kind" (readOptional readText) (·.kind) fun d a => { d with kind := some a },
    .of "triplet" (readOptional readText) (·.triplet) fun d a => { d with triplet := some a },
    .of "size" (readOptional readNat) (·.size) fun d a => { d with size := some a },
    .of "version" (readOptional readText) (·.version) fun d a => { d with version := some a }]

/-- The binary of a draft that has the four fields that must be there. -/
def ofDraft? (d : Draft) : Option Binary := do
  let os ← d.os
  let arch ← d.arch
  let url ← d.url
  let sha256 ← d.sha256
  return { os, arch, url, sha256, extension := d.extension.getD [], kind := d.kind.getD none,
           triplet := d.triplet.getD none, size := d.size.getD none,
           version := d.version.getD none }

/-- Reads a binary. -/
def read : Reader Binary :=
  Json.readRecord fields {} ofDraft?

/-- A binary as a JSON object. -/
def toJson (b : Binary) : Value :=
  .object
    [("os".toList, .text b.os), ("arch".toList, .text b.arch), ("url".toList, .text b.url),
      ("sha256".toList, .text b.sha256), ("extension".toList, .text b.extension),
      ("kind".toList, .ofText? b.kind), ("triplet".toList, .ofText? b.triplet),
      ("size".toList, .ofNat? b.size), ("version".toList, .ofText? b.version)]

end Binary

/-- The fields of a release as far as they have been read. -/
structure Release.Draft where
  stable : Option Bool := none
  files : Option (List Binary) := none

namespace Release

open Json in
/-- The fields of a release, in their order. -/
def fields : List (Json.Field Draft) :=
  [.of "stable" readBool (·.stable) fun d a => { d with stable := some a },
    .of "files" (readArray Binary.read) (·.files) fun d a => { d with files := some a }]

/-- Reads a release. -/
def read : Reader Release :=
  Json.readRecord fields {} fun d =>
    some { stable := d.stable.getD false, files := d.files.getD [] }

/-- A release as a JSON object. -/
def toJson (r : Release) : Value :=
  .object [("stable".toList, .bool r.stable), ("files".toList, .array (r.files.map Binary.toJson))]

end Release

namespace Catalog

/-- **Reads a catalog document.** -/
def read (text : Text) : Except Json.Fault Catalog :=
  ofEntries <$> Json.readDocument (Json.readEntries Release.read) text

/-- A catalog as a JSON object. -/
def toJson (c : Catalog) : Value :=
  .object (c.entries.map fun (tag, release) => (tag, release.toJson))

/-- **Prints a catalog document**, in one line. -/
def write (c : Catalog) : Text :=
  c.toJson.compact

end Catalog

end JuliaReleases
