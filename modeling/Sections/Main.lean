import Sections.CommandLine.Program

namespace Sections

-- A text as it is written out.
def string (text : Text) : String := String.ofList (Text.chars text)

-- Opening a file for both does not change it.
def deniedOnDisk (path : String) : IO (List Access) := do
  try
    discard (IO.FS.Handle.mk path .readWrite)
    return []
  catch _ => return [.write]

-- What stands at a route on disk, and what is denied there. Reading a directory fails with an
-- error that names no file.
def nodeOnDisk? (route : Route) : IO (Option (Node × List Access)) := do
  let path := string route.text
  try
    let bytes ← IO.FS.readBinFile path
    return some (.file bytes.toList, ← deniedOnDisk path)
  catch
    | .inappropriateType none _ _ => return some (.directory, [])
    | .permissionDenied _ _ _ => return some (.file [], [.read, .write])
    | _ => return none

-- What stands on the way along some paths.
def treeOnDisk (paths : List Text) : IO FileTree := do
  let directory := Route.resolve [] (← IO.currentDir).toString.units
  let mut tree : FileTree := ⟨directory, [], []⟩
  for path in paths do
    for route in Route.trail (if Route.isAbsolute path then [] else directory) (Route.names path) do
      match ← nodeOnDisk? route with
      | some (node, denied) =>
          tree := ⟨directory, (route, node) :: tree.nodes, denied.map (·, route) ++ tree.denied⟩
      | none => pure ()
  return tree

def environment : IO Environment := do
  let read? (name : String) : IO (Option Text) := return (← IO.getEnv name).map String.units
  return ⟨← read? "SECTION_EDITOR_CONFIG", ← read? "SECTION_EDITOR_LINE_SEPARATOR",
    ← read? "SECTION_EDITOR_CONCURRENCY"⟩

end Sections

open Sections

def main (arguments : List String) : IO UInt32 := do
  let arguments := arguments.map String.units
  let env ← environment
  let paths :=
    match CommandLine.parse arguments with
    | .ok (.run invocation) => CommandLine.paths invocation env
    | _ => []
  let tree ← treeOnDisk paths
  let outcome := CommandLine.run arguments env tree
  for (route, bytes) in outcome.tree.changesSince tree do
    IO.FS.writeBinFile (string route.text) ⟨bytes.toArray⟩
  IO.print (string outcome.output)
  for message in outcome.messages do
    IO.eprintln (string message)
  return UInt32.ofNat (outcome.exit.getD 0)
