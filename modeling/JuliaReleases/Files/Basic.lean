import JuliaReleases.Text.Basic

/-!
# Files, as far as the program looks at them

The program reads files and never writes any, so all it depends on is what a path leads to:
`JuliaReleases.Surroundings.node`. Together with the current directory and one environment variable
that makes up its `JuliaReleases.Surroundings`.
-/

namespace JuliaReleases

/-- What a path leads to. -/
inductive Node where
  /-- A regular file with these bytes. -/
  | file (bytes : ByteArray)
  | directory
  /-- Nothing. -/
  | missing
  /-- Nothing, because the path goes on behind a file. -/
  | blocked

/-- Why no text can be read at a path. -/
inductive FileFault where
  /-- Nothing is there. -/
  | missing
  /-- The path goes on behind a file. -/
  | blocked
  /-- A directory is there. -/
  | directory
  /-- The file is not encoded in UTF-8. -/
  | encoding
deriving DecidableEq

/-- The wording of the fault. -/
def FileFault.message : FileFault → Text
  | missing => "No such file or directory (os error 2)".toList
  | blocked => "Not a directory (os error 20)".toList
  | directory => "Is a directory (os error 21)".toList
  | encoding => "stream did not contain valid UTF-8".toList

/-- The text at a node, which has to be a file. -/
def Node.text : Node → Except FileFault Text
  | file bytes =>
    match String.fromUTF8? bytes with
    | some s => .ok s.toList
    | none => .error .encoding
  | directory => .error .directory
  | missing => .error .missing
  | blocked => .error .blocked

/-- What surrounds a run of the program. -/
structure Surroundings where
  /-- The path of the current directory. -/
  directory : Text
  /-- The project that the environment names, if it names any. -/
  project : Option Text
  /-- What each path leads to. -/
  node : Text → Node

namespace Surroundings

/-- Whether a path leads to a regular file. -/
def isFile (s : Surroundings) (path : Text) : Bool :=
  match s.node path with
  | .file _ => true
  | _ => false

/-- Reads the text at a path. -/
def read (s : Surroundings) (path : Text) : Except FileFault Text :=
  (s.node path).text

end Surroundings

/-- The path of a name in a directory. An empty path is the current directory and adds nothing, and
a path that ends in a slash needs no further one. -/
def joinPath (directory name : Text) : Text :=
  if directory = [] then name
  else if directory.getLast? = some '/' then directory ++ name
  else directory ++ '/' :: name

end JuliaReleases
