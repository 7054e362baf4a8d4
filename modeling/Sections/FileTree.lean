import Sections.Route
import Sections.Text.Shown
import Sections.Text.Utf8

namespace Sections

inductive Node where
  | file (bytes : Bytes)
  | directory
  deriving Repr, DecidableEq

-- What a file is opened for.
inductive Access where
  | read
  | write
  deriving Repr, DecidableEq

-- A working directory and files by route. The directories above a file, above a
-- listed directory and above the working directory are there without being listed.
-- A file may be opened for all but what is denied there.
structure FileTree where
  workingDirectory : Route
  nodes : List (Route × Node)
  denied : List (Access × Route)
  deriving Repr

-- Why a file cannot be opened. Paths are those that were asked for, as the system sees them.
inductive FileError where
  | missing (path : Text)
  | notDirectory (path : Text)
  | nameTooLong (path : Text)
  | isDirectory
  | denied (path : Text)
  | notPath (path : Text)
  deriving Repr, DecidableEq

def FileError.message : FileError → Text
  | .missing path => "ENOENT: no such file or directory, open '".units ++ path ++ ['\''.unit]
  | .notDirectory path => "ENOTDIR: not a directory, open '".units ++ path ++ ['\''.unit]
  | .nameTooLong path => "ENAMETOOLONG: name too long, open '".units ++ path ++ ['\''.unit]
  | .isDirectory => "EISDIR: illegal operation on a directory, read".units
  | .denied path => "EACCES: permission denied, open '".units ++ path ++ ['\''.unit]
  | .notPath path =>
      "The argument 'path' must be a string, Uint8Array, or URL without null bytes. ".units ++
        "Received ".units ++ Text.shown path

namespace FileTree

def at? (tree : FileTree) (route : Route) : Option Node :=
  match tree.nodes.lookup route with
  | some node => some node
  | none =>
      if route.isPrefixOf tree.workingDirectory || tree.nodes.any (route.isPrefixOf ·.1) then
        some .directory
      else none

def isDirectoryAt (tree : FileTree) (route : Route) : Bool := tree.at? route = some .directory

-- The bytes that a name and a path may have.
def longestName : Nat := 255

def longestPath : Nat := 4095

-- Follows names from a route, each from a directory that exists.
def follow (tree : FileTree) (path : Text) : Route → List Text → Except FileError Route
  | route, [] => .ok route
  | route, name :: rest =>
      if tree.isDirectoryAt route then
        let next := route.enter name
        if longestName < (Text.encode name).length then .error (.nameTooLong path)
        else if (tree.at? next).isSome then tree.follow path next rest else .error (.missing path)
      else .error (.notDirectory path)

-- The node that a path of characters leads to. A slash at the end asks for a directory.
def find (tree : FileTree) (path : Text) : Except FileError (Route × Node) :=
  if path.isEmpty then .error (.missing path)
  else if longestPath < (Text.encode path).length then .error (.nameTooLong path)
  else
    match tree.follow path (if Route.isAbsolute path then [] else tree.workingDirectory)
        (Route.names path) with
    | .error e => .error e
    | .ok route =>
        match tree.at? route with
        | none => .error (.missing path)
        | some (.file bytes) =>
            if path.getLast? = some '/'.unit then .error (.notDirectory path)
            else .ok (route, .file bytes)
        | some .directory => .ok (route, .directory)

-- The system takes paths as bytes, so halves of a pair that stand alone are replaced before it
-- sees them. A path with a null character is none.
def locate (tree : FileTree) (path : Text) : Except FileError (Route × Node) :=
  if path.any (·.toNat = 0) then .error (.notPath path) else tree.find (Text.toWellFormed path)

def has (tree : FileTree) (path : Text) : Bool :=
  match tree.locate path with
  | .ok _ => true
  | .error _ => false

def hasDirectory (tree : FileTree) (path : Text) : Bool :=
  match tree.locate path with
  | .ok (_, .directory) => true
  | _ => false

def permits (tree : FileTree) (access : Access) (route : Route) : Bool :=
  (access, route) ∉ tree.denied

-- The file that a path leads to, where it may be opened.
def openFile (tree : FileTree) (access : Access) (path : Text) : Except FileError (Route × Bytes) :=
  match tree.locate path with
  | .ok (route, .file bytes) =>
      if tree.permits access route then .ok (route, bytes)
      else .error (.denied (Text.toWellFormed path))
  | .ok (_, .directory) => .error .isDirectory
  | .error e => .error e

def readText (tree : FileTree) (path : Text) : Except FileError Text :=
  (tree.openFile .read path).map fun file => Text.decode file.2

def setFile (route : Route) (bytes : Bytes) : List (Route × Node) → List (Route × Node)
  | [] => [(route, .file bytes)]
  | (key, node) :: rest =>
      if key = route then (key, .file bytes) :: rest else (key, node) :: setFile route bytes rest

-- Gives a file a new text. Only files that were read are ever written to, so none is made here.
def writeText (tree : FileTree) (path text : Text) : Except FileError FileTree :=
  (tree.openFile .write path).map fun file =>
    { tree with nodes := setFile file.1 (Text.encode text) tree.nodes }

-- The files whose bytes are not those of an earlier tree.
def changesSince (tree earlier : FileTree) : List (Route × Bytes) :=
  tree.nodes.filterMap fun entry =>
    match entry.2 with
    | .file bytes =>
        if earlier.at? entry.1 = some (.file bytes) then none else some (entry.1, bytes)
    | .directory => none

end FileTree

end Sections
