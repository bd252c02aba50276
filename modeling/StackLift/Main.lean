/-
# The program

Plays the script of the command line on the files of the system.
-/
import StackLift.CommandLine.Commands

namespace StackLift.CommandLine

/-- The number of an error of the system, which may be given with its sign turned. -/
def errorNumber (code : UInt32) : UInt32 := if code < 0 - code then code else 0 - code

/-- What an error of the system means for a file.  The system's number is 21 for a directory where
a file should be, and 36 for a long name. -/
def FileError.ofSystem (e : IO.Error) : FileError :=
  match e with
  | .noFileOrDirectory .. => .missing
  | .inappropriateType _ code _ => if errorNumber code = 21 then .isDirectory else .notDirectory
  | .invalidArgument _ code _ => if errorNumber code = 36 then .nameTooLong else .badPath
  | e => .other (toString e)

/-- Runs an action, and tells what went wrong. -/
def attempt (action : IO α) : IO (Except FileError α) := do
  try
    return .ok (← action)
  catch e => return .error (.ofSystem e)

/-- The bytes of a text. -/
def bytesOf (t : Text) : ByteArray := ⟨t.toArray⟩

/-- Plays a script on the files of the system. -/
def Script.play : Script → IO UInt32
  | .exit code => return code.toUInt32
  | .print t next => do
    let out ← IO.getStdout
    out.write (bytesOf t)
    out.flush
    next.play
  | .complain line next => do
    IO.eprintln line
    next.play
  | .read path next => do
    let content ← attempt (IO.FS.readBinFile path)
    (next (content.map ByteArray.toList)).play
  | .write path content next => do
    match ← attempt (IO.FS.writeBinFile path (bytesOf content)) with
    | .ok () => (next none).play
    | .error e => (next (some e)).play
  | .append path content next => do
    let _ ← attempt (IO.FS.withFile path .append fun h => h.write (bytesOf content))
    next.play

end StackLift.CommandLine

/-- The program. -/
def main (args : List String) : IO UInt32 := (StackLift.CommandLine.script args).play
