import Sections.Text

namespace Sections

-- The way to a file: the names from the root directory down.
abbrev Route := List Text

namespace Route

-- The pieces of a text around every slash.
def slashPieces : Text → List Text
  | [] => [[]]
  | c :: rest =>
      match slashPieces rest with
      | [] => [[c]]
      | piece :: pieces => if c = '/'.unit then [] :: piece :: pieces else (c :: piece) :: pieces

-- The names in a path. Repeated slashes count once.
def names (path : Text) : List Text := (slashPieces path).filter (!·.isEmpty)

def isAbsolute (path : Text) : Bool := path.head? = some '/'.unit

-- One name after another: a dot stays, two dots go up, at the root in vain.
def enter (route : Route) (name : Text) : Route :=
  if name = ['.'.unit] then route
  else if name = ['.'.unit, '.'.unit] then route.dropLast
  else route ++ [name]

-- The route that a path describes, without asking which directories exist.
def resolve (base : Route) (path : Text) : Route :=
  (names path).foldl enter (if isAbsolute path then [] else base)

-- The routes passed on the way along some names, both ends included.
def trail (route : Route) : List Text → List Route
  | [] => [route]
  | name :: rest => route :: trail (route.enter name) rest

def text (route : Route) : Text :=
  if route.isEmpty then ['/'.unit] else route.flatMap ('/'.unit :: ·)

end Route

end Sections
