/-
# Scripts

A script says what a command does to the world outside: it reads and writes files, prints, and
ends with a code.  `Script.run` plays a script in a directory that is held in memory.
-/
import StackLift.CommandLine.Directory

namespace StackLift.CommandLine

/-- What is done, step by step. -/
inductive Script
  | exit (code : Nat)
  | print (t : Text) (next : Script)
  /-- Prints a line where errors go. -/
  | complain (line : String) (next : Script)
  /-- Reads a file. -/
  | read (path : String) (next : Except FileError Text → Script)
  /-- Writes a file, and tells what went wrong, if something did. -/
  | write (path : String) (content : Text) (next : Option FileError → Script)
  /-- Writes at the end of a file. -/
  | append (path : String) (content : Text) (next : Script)

/-- Complains in several lines. -/
def Script.complainAll (lines : List String) (next : Script) : Script :=
  lines.foldr .complain next

/-! ## Playing in memory -/

/-- What came of a script. -/
structure Outcome where
  directory : Directory
  /-- What was printed. -/
  output : Text := []
  /-- The lines that were printed where errors go. -/
  complaints : List String := []
  code : Nat := 0
  deriving Repr, Inhabited

/-- The outcome with something printed before it. -/
def Outcome.after (o : Outcome) (t : Text) : Outcome := { o with output := t ++ o.output }

/-- Plays a script in a directory. -/
def Script.run (d : Directory) : Script → Outcome
  | .exit code => { directory := d, code }
  | .print t next => (next.run d).after t
  | .complain line next =>
    let o := next.run d
    { o with complaints := line :: o.complaints }
  | .read path next => (next (d.read path)).run d
  | .write path content next =>
    match d.write path content with
    | .ok d => (next none).run d
    | .error e => (next (some e)).run d
  | .append path content next =>
    match d.read path with
    | .ok before =>
      match d.write path (before ++ content) with
      | .ok d => next.run d
      | .error _ => next.run d
    | .error _ => next.run d

end StackLift.CommandLine
