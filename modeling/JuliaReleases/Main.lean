import JuliaReleases.CommandLine.Run

/-!
# The program

Looks up the paths that the command on the command line depends on, runs it within what it finds,
and prints the outcome.
-/

namespace JuliaReleases.Main

/-- What a path leads to; what cannot be read counts as missing, and an empty path leads nowhere. -/
def nodeAt (path : Text) : IO Node := do
  if path = [] then return .missing
  let file := (← IO.currentDir) / String.ofList path
  if ← file.isDir then return .directory
  try
    return .file (← IO.FS.readBinFile file)
  catch _ =>
    return .missing

/-- The surroundings of this run, as far as the arguments make them matter. -/
def surroundings (arguments : List Text) : IO Surroundings := do
  let directory := (← IO.currentDir).toString.toList
  let project := (← IO.getEnv "JULIA_PROJECT").map String.toList
  let unseen : Surroundings := { directory, project, node := fun _ => .missing }
  let paths := match CommandLine.read arguments with
    | .ok command => CommandLine.paths unseen command
    | .error _ => []
  let nodes ← paths.mapM fun path => return (path, ← nodeAt path)
  return { unseen with node := fun path => (nodes.lookup path).getD .missing }

end JuliaReleases.Main

/-- Runs the program with the arguments given to it. -/
def main (arguments : List String) : IO UInt32 := do
  let arguments := arguments.map String.toList
  let surroundings ← JuliaReleases.Main.surroundings arguments
  let outcome := JuliaReleases.CommandLine.run surroundings arguments
  IO.print (String.ofList outcome.output)
  if let some message := outcome.error then
    IO.eprintln ("Error: " ++ String.ofList message)
  if let some (.file fault) := outcome.cause then
    IO.eprintln ("\nCaused by:\n    " ++ String.ofList fault.message)
  return outcome.code.toUInt32
