import JuliaReleases.Project.CompatTable

/-!
# Where a project file is

A project is named by a path: the one given, else the one in the environment, else the current
directory. `JuliaReleases.Project.locate` finds its file. A path to a regular file is the project
file; any other is taken for a directory that holds one, under one of two names. What is named but
has no project file is an error, and no reason to look further.
-/

namespace JuliaReleases.Project

/-- The names of a project file, the preferred one first. -/
def fileNames : List Text :=
  ["JuliaProject.toml".toList, "Project.toml".toList]

/-- The path that names the project. An empty one in the environment names none. -/
def base (s : Surroundings) (project : Option Text) : Text :=
  (project <|> s.project.filter fun path => !path.isEmpty).getD s.directory

/-- Where the file of a project may be, the preferred place first. -/
def candidates (base : Text) : List Text :=
  base :: fileNames.map (joinPath base)

/-- **The path of the project file.** -/
def locate (s : Surroundings) (project : Option Text) : Except ProjectError Text :=
  let base := base s project
  match (candidates base).find? s.isFile with
  | some path => .ok path
  | none => .error (.notFound base)

/-- The compat range that the project file at a path states. -/
def compatRangeAt (s : Surroundings) (path : Text)
    (reader : EntryReader := fun text => entries text) : Except ProjectError CompatRange :=
  match s.read path with
  | .ok text => compatRange text reader
  | .error fault => .error (.unreadable path fault)

/-- The compat range of the project. -/
def locatedCompatRange (s : Surroundings) (project : Option Text)
    (reader : EntryReader := fun text => entries text) : Except ProjectError CompatRange := do
  compatRangeAt s (← locate s project) reader

end JuliaReleases.Project
