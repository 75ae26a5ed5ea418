import Bytebeat.CommandLine.Commands

/-!
# The program

Runs the command line on the system's files.
-/

namespace Bytebeat.CommandLine

/-- The number of a system error, which some calls report negated. -/
def errorNumber (code : UInt32) : UInt32 := if code < 0x80000000 then code else 0 - code

def describe : IO.Error → DiskError
  | .noFileOrDirectory .. => .missing
  | .inappropriateType _ code details | .permissionDenied _ code details
  | .invalidArgument _ code details | .resourceExhausted _ code details =>
    match (errorNumber code).toNat with
    | 20 => .notADirectory
    | 21 => .isADirectory
    | 36 => .nameTooLong
    | number => .other s!"{details.capitalize} (os error {number})"
  | e => .other e.toString

def systemDisk : Disk IO where
  readText path := do
    try
      match String.fromUTF8? (← IO.FS.readBinFile path) with
      | some text => return .ok text
      | none => return .error .notText
    catch e => return .error (describe e)
  writeBytes path bytes := do
    try
      let file ← IO.FS.Handle.mk path .write
      file.write bytes.toByteArray
      file.flush
      return .ok ()
    catch e => return .error (describe e)

end Bytebeat.CommandLine

def main (args : List String) : IO UInt32 := do
  let outcome ← Bytebeat.CommandLine.run Bytebeat.CommandLine.systemDisk args
  IO.print outcome.stdout
  IO.eprint outcome.stderr
  return outcome.exitCode
