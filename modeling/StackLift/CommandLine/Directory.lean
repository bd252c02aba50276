/-
# Directories in memory

A directory holds files and no directories.  A path leads through its parts, from the directory
itself or from the root of all directories.  Nothing is known about what lies above the directory,
but that the root has a place for devices, and that one device holds nothing.

* `Directory.read` reads the file that a path leads to;
* `Directory.write` makes the file that a path leads to.
-/
import StackLift.Text.Basic

namespace StackLift.CommandLine

/-- A directory without directories in it. -/
abbrev Directory := List (String × Text)

/-! ## Errors -/

/-- Why a file cannot be read or written. -/
inductive FileError
  | missing
  | isDirectory
  /-- A part of the path that more parts follow is a file. -/
  | notDirectory
  | nameTooLong
  | badPath
  /-- Anything else, in the words of the system. -/
  | other (reason : String)
  deriving DecidableEq, Repr, Inhabited

/-- How an error is worded. -/
def FileError.message : FileError → String
  | .missing => "no such file or directory"
  | .isDirectory => "is a directory"
  | .notDirectory => "not a directory"
  | .nameTooLong => "file name too long"
  | .badPath => "invalid argument"
  | .other reason => reason

/-! ## Paths -/

/-- The most bytes that a part of a path may have. -/
def maxPartBytes : Nat := 255

/-- The most bytes that a path may have. -/
def maxPathBytes : Nat := 4095

/-- What is wrong with a path wherever it leads. -/
def pathError? (path : String) : Option FileError :=
  if path.toList.contains '\x00' then some .badPath
  else if path.isEmpty then some .missing
  else if maxPathBytes < path.utf8ByteSize then some .nameTooLong
  else none

/-- The parts of a path.  An empty one stands before, after or between slashes. -/
def pathParts (path : String) : List String := path.splitOn "/"

/-- Where a path can lead. -/
inductive Place
  /-- The directory itself. -/
  | here
  /-- A directory above. -/
  | above
  | root
  /-- The directory of devices. -/
  | devices
  /-- The device that holds nothing, whatever is written to it. -/
  | nothing
  | file (name : String)
  deriving DecidableEq, Repr

/-- Where a path starts that has parts. -/
def startOf (parts : List String) : Place :=
  if parts.head? = some "" then .root else .here

/-- Whether a part leads to no file of its own name. -/
def isDots (part : String) : Bool := part == "." || part == ".."

/-- Whether more parts may follow a place. -/
def Place.isDirectory : Place → Bool
  | .nothing | .file _ => false
  | _ => true

/-- The place above a directory. -/
def Place.parent : Place → Place
  | .root | .devices => .root
  | _ => .above

/-- What has a name in a place. -/
def Directory.find? (d : Directory) (p : Place) (name : String) : Option Place :=
  match p with
  | .here => (d.lookup name).map fun _ => .file name
  | .root => if name = "dev" then some .devices else none
  | .devices => if name = "null" then some .nothing else none
  | _ => none

/-- Where a part leads from a place. -/
def Directory.step (d : Directory) (p : Place) (part : String) : Except FileError Place :=
  if !p.isDirectory then .error .notDirectory
  else if part = "" ∨ part = "." then .ok p
  else if part = ".." then .ok p.parent
  else if maxPartBytes < part.utf8ByteSize then .error .nameTooLong
  else
    match d.find? p part with
    | some q => .ok q
    | none => .error .missing

/-- Where parts lead from a place. -/
def Directory.walk (d : Directory) (p : Place) (parts : List String) : Except FileError Place :=
  parts.foldlM d.step p

/-! ## Files -/

/-- The content of the file that a path leads to. -/
def Directory.read (d : Directory) (path : String) : Except FileError Text :=
  match pathError? path with
  | some e => .error e
  | none => do
    let parts := pathParts path
    match ← d.walk (startOf parts) parts with
    | .file name => .ok ((d.lookup name).getD [])
    | .nothing => .ok []
    | _ => .error .isDirectory

/-- The directory with a file of a name. -/
def Directory.put (d : Directory) (name : String) (content : Text) : Directory :=
  (name, content) :: d.filter (·.1 ≠ name)

/-- The directory with the file that the last part of a path names.  Slashes after it ask for a
directory; what is made elsewhere leaves no trace here. -/
def Directory.writePart (d : Directory) (p : Place) (part : String) (slashes : Bool)
    (content : Text) : Except FileError Directory :=
  if !p.isDirectory then .error .notDirectory
  else if slashes ∨ isDots part then .error .isDirectory
  else if maxPartBytes < part.utf8ByteSize then .error .nameTooLong
  else if (d.find? p part).any (·.isDirectory) then .error .isDirectory
  else .ok (if p = .here then d.put part content else d)

/-- The directory with the file that a path leads to. -/
def Directory.write (d : Directory) (path : String) (content : Text) :
    Except FileError Directory :=
  match pathError? path with
  | some e => .error e
  | none =>
    let parts := pathParts path
    let (slashes, named) := parts.reverse.span (·.isEmpty)
    match named with
    | [] => .error .isDirectory
    | part :: before => do
      let p ← d.walk (startOf parts) before.reverse
      d.writePart p part (!slashes.isEmpty) content

end StackLift.CommandLine
