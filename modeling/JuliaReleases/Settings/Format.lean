import JuliaReleases.Json.Typed
import JuliaReleases.Settings.Basic

/-!
# Settings as a JSON document

The document is a record of `lts` and `currentMajor`. What is missing has its usual value.
-/

namespace JuliaReleases

/-- The settings as far as they have been read. -/
structure Settings.Draft where
  lts : Option Text := none
  currentMajor : Option Nat := none

namespace Settings

open Json in
/-- The fields of the settings, in their order. -/
def fields : List (Json.Field Draft) :=
  [.of "lts" readText (·.lts) fun d a => { d with lts := some a },
    .of "currentMajor" readNat (·.currentMajor) fun d a => { d with currentMajor := some a }]

/-- The settings of a draft. -/
def ofDraft (d : Draft) : Settings :=
  let usual : Settings := {}
  { lts := d.lts.getD usual.lts, currentMajor := d.currentMajor.getD usual.currentMajor }

/-- **Reads a settings document.** -/
def read (text : Text) : Except Json.Fault Settings :=
  Json.readDocument (Json.readRecord fields {} (some <| ofDraft ·)) text

end Settings

end JuliaReleases
