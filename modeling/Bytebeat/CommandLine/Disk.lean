/-!
# Disks

What the program needs of a file system, over any monad.
-/

namespace Bytebeat.CommandLine

inductive DiskError where
  | missing
  /-- The path leads through a file. -/
  | notADirectory
  | isADirectory
  | nameTooLong
  /-- The bytes of the file are no text. -/
  | notText
  /-- Any other error, in the system's words. -/
  | other (description : String)
  deriving DecidableEq, Repr

def DiskError.message : DiskError → String
  | missing => "No such file or directory (os error 2)"
  | notADirectory => "Not a directory (os error 20)"
  | isADirectory => "Is a directory (os error 21)"
  | nameTooLong => "File name too long (os error 36)"
  | notText => "stream did not contain valid UTF-8"
  | other description => description

structure Disk (m : Type → Type) where
  readText : String → m (Except DiskError String)
  writeBytes : String → List UInt8 → m (Except DiskError Unit)

end Bytebeat.CommandLine
