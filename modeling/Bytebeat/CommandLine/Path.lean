/-!
# Paths

A path leads to a location one name after the other: a point stays, two points
go up, any other name goes down. Locations are told apart by names alone;
whether anything is there is not a question of the path.
-/

namespace Bytebeat.CommandLine

/-- The directory that a location is named from. -/
inductive Base where
  /-- So many directories above the working directory. -/
  | above (levels : Nat)
  | root
  deriving DecidableEq, Repr

/-- A place for a file or a directory: a base and the names that lead down from it, the last
first. -/
structure Location where
  base : Base
  names : List String := []
  deriving DecidableEq, Repr

namespace Location

def here : Location := { base := .above 0 }

def root : Location := { base := .root }

/-- The directory above; the root is above itself. -/
def parent : Location → Location
  | ⟨base, _ :: names⟩ => ⟨base, names⟩
  | ⟨.above levels, []⟩ => ⟨.above (levels + 1), []⟩
  | ⟨.root, []⟩ => root

def step (l : Location) (name : String) : Location :=
  if name = "." then l
  else if name = ".." then l.parent
  else { l with names := name :: l.names }

/-- Whether `l` is below the directory `dir`. -/
def isBelow (l dir : Location) : Bool :=
  l.base == dir.base && l.names != dir.names && dir.names.isSuffixOf l.names

end Location

namespace Path

/-- The names in a path. Slashes in a row count as one. -/
def names (path : String) : List String :=
  ((path.toList.splitOn '/').filter fun name => !name.isEmpty).map String.ofList

/-- The directory that a path starts from. -/
def start (path : String) : Location :=
  if path.toList.head? = some '/' then .root else .here

/-- Whether a path ends in a slash, so that it can only be that of a directory. -/
def endsInSlash (path : String) : Bool := path.toList.getLast? == some '/'

def location (path : String) : Location := (names path).foldl Location.step (start path)

end Path

end Bytebeat.CommandLine
