import Bytebeat.CommandLine.Disk
import Bytebeat.CommandLine.Path

/-!
# Files in memory

A disk whose files are held in memory. Directories are there as long as there
are files below them; the working directory, those above it and those that
every system has are always there. All names of a path but the last have to
lead to directories.
-/

namespace Bytebeat.CommandLine

abbrev Files := List (Location × List UInt8)

namespace Files

def maxNameBytes : Nat := 255

def maxPathBytes : Nat := 4095

/-- The directories that every system has in its root. -/
def standardDirectories : List String :=
  ["bin", "boot", "dev", "etc", "home", "lib", "media", "mnt", "opt", "proc", "root", "run",
    "sbin", "srv", "sys", "tmp", "usr", "var"]

/-- The file that is always empty, whatever is written to it. -/
def nullDevice : Location := Path.location "/dev/null"

def isDirectory (files : Files) (l : Location) : Bool :=
  match l with
  | ⟨_, []⟩ => true
  | ⟨.root, [name]⟩ => standardDirectories.contains name || files.any (·.1.isBelow l)
  | l => files.any (·.1.isBelow l)

inductive Found where
  | nothing
  | directory
  | file (bytes : List UInt8)
  deriving DecidableEq, Repr

def find (files : Files) (l : Location) : Except DiskError Found :=
  if l.names.head?.any (maxNameBytes < ·.utf8ByteSize) then .error .nameTooLong
  else if l = nullDevice then .ok (.file [])
  else if files.isDirectory l then .ok .directory
  else
    match files.lookup l with
    | some bytes => .ok (.file bytes)
    | none => .ok .nothing

/-- Goes from the directory `l` along names, all of which but the last have to lead to
directories. -/
def walk (files : Files) (l : Location) : List String → Except DiskError Location
  | [] => .ok l
  | [name] => .ok (l.step name)
  | name :: names =>
    match files.find (l.step name) with
    | .ok .directory => files.walk (l.step name) names
    | .ok (.file _) => .error .notADirectory
    | .ok .nothing => .error .missing
    | .error e => .error e

def follow (files : Files) (path : String) : Except DiskError Location :=
  if maxPathBytes < path.utf8ByteSize then .error .nameTooLong
  else files.walk (Path.start path) (Path.names path)

def read (files : Files) (path : String) : Except DiskError (List UInt8) := do
  match ← files.find (← files.follow path) with
  | .nothing => throw .missing
  | .directory => throw .isADirectory
  | .file bytes => if Path.endsInSlash path then throw .notADirectory else return bytes

/-- The files with one more, or with other bytes in it. -/
def put (files : Files) (l : Location) (bytes : List UInt8) : Files :=
  match files with
  | [] => [(l, bytes)]
  | (k, old) :: rest => if k = l then (l, bytes) :: rest else (k, old) :: put rest l bytes

def write (files : Files) (path : String) (bytes : List UInt8) : Except DiskError Files := do
  let l ← files.follow path
  if Path.endsInSlash path then throw .isADirectory
  match ← files.find l with
  | .directory => throw .isADirectory
  | .file _ | .nothing => return if l = nullDevice then files else files.put l bytes

def disk : Disk (StateM Files) where
  readText path := do
    match (← get).read path with
    | .error e => return .error e
    | .ok bytes =>
      match String.fromUTF8? bytes.toByteArray with
      | some text => return .ok text
      | none => return .error .notText
  writeBytes path bytes := do
    match (← get).write path bytes with
    | .error e => return .error e
    | .ok files =>
      set files
      return .ok ()

end Files

end Bytebeat.CommandLine
