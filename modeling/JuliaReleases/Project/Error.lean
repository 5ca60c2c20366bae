import JuliaReleases.CompatRange.Error
import JuliaReleases.Files.Basic
import JuliaReleases.Text.Escaped
import JuliaReleases.Toml.StringLiteral

/-!
# Why a project has no compat range

From a project's path to its compat range there are five things that can go wrong, and one
`JuliaReleases.ProjectError` for each.
-/

namespace JuliaReleases

/-- Why a project has no compat range. -/
inductive ProjectError where
  /-- There is no project file; the project is repeated as it was given. -/
  | notFound (project : Text)
  /-- The file cannot be read. -/
  | unreadable (path : Text) (fault : FileFault)
  /-- The parser makes no document of the file. -/
  | malformed
  /-- A string in the compat table stands for no text. -/
  | string (literal : Toml.StringLiteral)
  /-- The entry is blank. -/
  | blankEntry (entry : Text)
  /-- The entry is no specifier. -/
  | range (e : RangeError)
deriving DecidableEq

/-- The wording of the error. -/
def ProjectError.message : ProjectError → Text
  | notFound project =>
    "Unable to locate project file with project input: ".toList ++ project
  | unreadable path fault =>
    "Failed to read project file ".toList ++ Text.escaped path ++ ": ".toList ++ fault.message
  | malformed => "Failed to parse file: Failed to parse TOML".toList
  | string literal =>
    "Invalid string ".toList ++ literal.source ++
      ": invalid value, expected unicode hexadecimal value".toList
  | blankEntry entry =>
    "Invalid version range found in Julia compat: ".toList ++ Text.quoted entry
  | range e => e.message

end JuliaReleases
