import JuliaReleases.Files.Basic

/-!
# Trees of files

A `JuliaReleases.FileTree` is a directory with all that is below it, as a value.
`JuliaReleases.FileTree.surroundings` places a tree at the current directory, so that the program
can run within it; everything outside counts as missing.

A path is followed from directory to directory (`JuliaReleases.FileTree.follow`). A point and an
empty part stay where they are, two points go back to the directory one came from, and any part
behind a file leads nowhere; so a slash at the end of a path asks for a directory.
-/

namespace JuliaReleases

/-- A file with its bytes, or a directory with its entries. -/
inductive FileTree where
  | file (bytes : ByteArray)
  | directory (entries : List (Text × FileTree))

namespace FileTree

/-- What there is at the root of a tree. -/
def node : FileTree → Node
  | file bytes => .file bytes
  | directory _ => .directory

/-- What the parts of a path lead to from a tree on; `above` are the directories that it lies in,
the nearest first. -/
def follow (above : List FileTree) (tree : FileTree) : List Text → Node
  | [] => tree.node
  | part :: parts =>
    match tree with
    | file _ => .blocked
    | directory entries =>
      if part = [] ∨ part = ['.'] then follow above tree parts
      else if part = ['.', '.'] then
        match above with
        | parent :: above => follow above parent parts
        | [] => .missing
      else
        match entries.lookup part with
        | some child => follow (tree :: above) child parts
        | none => .missing

/-- What a path leads to when the tree is at the given directory, the current one. -/
def at? (tree : FileTree) (directory path : Text) : Node :=
  if path = [] then .missing
  else if path = directory then tree.node
  else
    match Text.dropPrefix? (directory ++ ['/']) path with
    | some path => follow [] tree (path.splitOn '/')
    | none => if path.head? = some '/' then .missing else follow [] tree (path.splitOn '/')

/-- The surroundings of a run in a tree. -/
def surroundings (tree : FileTree) (directory : Text) (project : Option Text) : Surroundings where
  directory
  project
  node := tree.at? directory

/-- Adds a tree below some directories, which are made if they do not exist. -/
def insert (tree : FileTree) (path : List Text) (added : FileTree) : FileTree :=
  match path with
  | [] => added
  | part :: parts =>
    let entries := match tree with
      | directory entries => entries
      | file _ => []
    let child := (entries.lookup part).getD (directory [])
    directory ((part, child.insert parts added) :: entries.filter fun entry => entry.1 ≠ part)

end FileTree

end JuliaReleases
