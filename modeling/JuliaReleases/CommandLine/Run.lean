import JuliaReleases.Catalog.Download
import JuliaReleases.Catalog.Format
import JuliaReleases.CommandLine.Arguments
import JuliaReleases.Project.Location
import JuliaReleases.Resolution
import JuliaReleases.Settings.Format

/-!
# Running a command

`JuliaReleases.CommandLine.run` is the program as a function of its arguments and its surroundings.
Its outcome is what is printed and the code that the program ends with: `0` if all went well, `1` if
the command failed and `2` if the arguments are no use. An error that has another one behind it,
such as a file that cannot be read, comes with its `JuliaReleases.Cause`. What is logged on the way
bears the time of day and is no part of the outcome.

A command looks at files in a fixed order, and the first failure ends it: the settings, then the
catalog, then, for a request that depends on it, the project.
-/

namespace JuliaReleases

/-- What is behind an error: why a path does not give what it is read for. -/
inductive Cause where
  /-- The file cannot be read. -/
  | file (fault : FileFault)
  /-- The text of the file is no document of its kind. Any closer description of the fault, such as
  the line that it is in, can be found from the text. -/
  | document (text : Text) (fault : Json.Fault)
deriving DecidableEq

/-- Why a command failed. -/
inductive CommandError where
  /-- The settings cannot be loaded. -/
  | settings (path : Text) (cause : Cause)
  /-- The file of the catalog cannot be read. -/
  | catalogFile (path : Text) (fault : FileFault)
  /-- The text of the catalog is no catalog document. -/
  | catalogDocument (text : Text) (fault : Json.Fault)
  | project (e : ProjectError)
  | resolve (e : ResolveError)
  | range (e : RangeError)
  | catalog (e : CatalogError)
deriving DecidableEq

namespace CommandError

/-- The wording of the error, without its cause. -/
def message : CommandError → Text
  | settings path _ => "Failed to load configuration ".toList ++ Text.escaped path
  | catalogFile path _ => "Failed to read release catalog ".toList ++ Text.escaped path
  | catalogDocument _ _ => "Invalid release catalog".toList
  | project e => e.message
  | resolve e => e.message
  | range e => e.message
  | catalog e => e.message

/-- The cause of the error, if there is one behind it. -/
def cause? : CommandError → Option Cause
  | settings _ cause => some cause
  | catalogFile _ fault => some (.file fault)
  | catalogDocument text fault => some (.document text fault)
  | project (.unreadable _ fault) => some (.file fault)
  | _ => none

end CommandError

/-- How a run of the program ends. -/
structure Outcome where
  code : Nat
  /-- What is printed. -/
  output : Text := []
  /-- What is said of a failure. -/
  error : Option Text := none
  /-- What is behind the failure. -/
  cause : Option Cause := none
deriving DecidableEq

/-- The outcome of a command that fails. -/
def Outcome.ofError (e : CommandError) : Outcome :=
  { code := 1, error := some e.message, cause := e.cause? }

namespace CommandLine

open Project (EntryReader entries)

/-- The name and the version of the program. -/
def programVersion : Text :=
  "julia-version 0.1.0".toList

/-- How the program is used. -/
def usage : Text :=
  "Usage: julia-version [--verbose] COMMAND

Commands:
  resolve VERSION [--releases FILE] [--include-prerelease] [--project PATH] [--config FILE]
  translate RANGE [--desugar]
  compat [--project PATH]
  download-info VERSION --releases FILE --os NAME --arch NAME".toList

/-! ### Files -/

/-- Reads the settings, or takes the usual ones if no path is given. -/
def loadSettings (s : Surroundings) : Option Text → Except CommandError Settings
  | none => .ok {}
  | some path =>
    match s.read path with
    | .error fault => .error (.settings path (.file fault))
    | .ok text => (Settings.read text).mapError fun fault => .settings path (.document text fault)

/-- Reads a catalog. -/
def loadCatalog (s : Surroundings) (path : Text) : Except CommandError Catalog :=
  match s.read path with
  | .error fault => .error (.catalogFile path fault)
  | .ok text => (Catalog.read text).mapError (.catalogDocument text)

/-- The compat range of the project, for a request that depends on it. -/
def loadCompat (s : Surroundings) (project : Option Text) (request : Request)
    (reader : EntryReader := fun text => entries text) :
    Except CommandError (Option CompatRange) :=
  match request with
  | .min => some <$> (Project.locatedCompatRange s project reader).mapError .project
  | _ => .ok none

/-- The paths that a command looks at, in its surroundings. -/
def paths (s : Surroundings) : Command → List Text
  | .resolve request releases project config _ =>
    config.toList ++ releases.toList ++
      if Request.read request = .min then Project.candidates (Project.base s project) else []
  | .compat project => Project.candidates (Project.base s project)
  | .downloadInfo _ releases _ _ => [releases]
  | .translate .. | .help | .version => []

/-! ### Commands -/

/-- Answers a request. -/
def runResolve (s : Surroundings) (request : Text) (releases project config : Option Text)
    (policy : PrereleasePolicy) (reader : EntryReader := fun text => entries text) :
    Except CommandError Text := do
  let settings ← loadSettings s config
  let catalog ← match releases with
    | some path => loadCatalog s path
    | none => .ok {}
  let compat ← loadCompat s project (Request.read request) reader
  (resolve settings catalog.versions request policy compat).mapError .resolve

/-- Translates a specifier. -/
def runTranslate (specifier : Text) (desugar : Bool) : Except CommandError Text := do
  let compat ← (CompatRange.ofSpecifier specifier).mapError .range
  if desugar then Range.write <$> compat.range.mapError .range else return compat.composite

/-- Shows the compat range of a project. -/
def runCompat (s : Surroundings) (project : Option Text)
    (reader : EntryReader := fun text => entries text) : Except CommandError Text :=
  CompatRange.composite <$> (Project.locatedCompatRange s project reader).mapError .project

/-- Shows where to download a version, as a JSON object. -/
def runDownloadInfo (s : Surroundings) (version releases os arch : Text) :
    Except CommandError Text := do
  let os ← (Os.read os).mapError fun e => .catalog (.platform e)
  let arch ← (Arch.read arch).mapError fun e => .catalog (.platform e)
  let platform : Platform := { os, arch }
  let catalog ← loadCatalog s releases
  let binary ← (catalog.binary? version platform).mapError .catalog
  let url ← (downloadAddress binary version platform).mapError .catalog
  let info : Json.Value := .object
    [("version".toList, .text version), ("url".toList, .text url),
      ("file".toList, match binary with
        | some binary => binary.toJson
        | none => .null)]
  return info.indented 0

/-- Carries out a command; the result is what is printed. -/
def runCommand (s : Surroundings) (command : Command)
    (reader : EntryReader := fun text => entries text) : Except CommandError Text :=
  match command with
  | .resolve request releases project config includePrerelease =>
    runResolve s request releases project config (if includePrerelease then .included else .named)
      reader
  | .translate specifier desugar => runTranslate specifier desugar
  | .compat project => runCompat s project reader
  | .downloadInfo version releases os arch => runDownloadInfo s version releases os arch
  | .help => .ok usage
  | .version => .ok programVersion

/-- **Runs the program**, with a reader for the entries of project files. -/
def run (s : Surroundings) (arguments : List Text)
    (reader : EntryReader := fun text => entries text) : Outcome :=
  match read arguments with
  | .error e => { code := 2, error := some e.message }
  | .ok command =>
    match runCommand s command reader with
    | .ok text => { code := 0, output := text ++ ['\n'] }
    | .error e => .ofError e

end CommandLine

end JuliaReleases
