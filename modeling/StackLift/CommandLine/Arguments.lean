/-
# Arguments of the command line

The arguments are a command, flags and files.  A flag stands before or after the command.  Its
value is the next argument, or follows an equals sign or a space in the same one.
-/

namespace StackLift.CommandLine

/-- What can be asked for. -/
inductive Command
  /-- Prints graphs of blocks. -/
  | graphs
  /-- Prints dominators and backbones. -/
  | dominators
  /-- Prints assembled listings. -/
  | assembly
  /-- Writes a graph in the hand-off form. -/
  | handoff
  deriving DecidableEq, Repr

/-- The name of a command. -/
def Command.name : Command → String
  | .graphs => "cfg"
  | .dominators => "dom"
  | .assembly => "asm"
  | .handoff => "export"

/-- The command of a name. -/
def Command.ofName? (s : String) : Option Command :=
  [Command.graphs, .dominators, .assembly, .handoff].find? (·.name == s)

/-- The choices that flags make. -/
structure Options where
  /-- The file that events are told to, or `stderr`. -/
  log : String := "stderr"
  /-- The topics of events that are told. -/
  topics : String := ""
  keepDead : Bool := false
  /-- The file that the hand-off form is written to; it is printed if the name is empty. -/
  output : String := ""
  deriving DecidableEq, Repr, Inhabited

/-- What arguments ask for. -/
structure Request where
  command : Option Command := none
  options : Options := {}
  files : List String := []
  deriving DecidableEq, Repr, Inhabited

/-- Why arguments make no sense. -/
inductive UsageError
  | unknownFlag (flag : String)
  | unexpectedWord (word : String)
  | missingValue (flag : String)
  | badValue (flag : String)
  deriving DecidableEq, Repr

/-- How an error is worded. -/
def UsageError.message : UsageError → String
  | .unknownFlag flag => "no such flag: " ++ flag
  | .unexpectedWord word => "no args expected, got " ++ word
  | .missingValue flag => "flag value required: " ++ flag
  | .badValue flag => "bad flag value: " ++ flag

/-! ## Flags -/

/-- A flag. -/
inductive Flag
  | log
  | verbosity
  | keepDead
  | output
  deriving DecidableEq, Repr

/-- The flag of a name.  The output can be chosen only for the hand-off form. -/
def Flag.ofName? (command : Option Command) (name : String) : Option Flag :=
  if name = "log" then some .log
  else if name = "verbosity" ∨ name = "v" then some .verbosity
  else if name = "keep-dead" then some .keepDead
  else if (name = "output" ∨ name = "o") ∧ command = some .handoff then some .output
  else none

/-- The truth value that a text spells, without regard to case.  An empty text agrees. -/
def boolOf? (s : String) : Option Bool :=
  let word := String.ofList (s.toList.map Char.toLower)
  if ["", "1", "t", "true", "y", "yes"].contains word then some true
  else if ["0", "f", "false", "n", "no"].contains word then some false
  else none

/-- The options with a flag that has a value. -/
def Options.set? (o : Options) (f : Flag) (value : String) : Option Options :=
  match f with
  | .log => some { o with log := value }
  | .verbosity => some { o with topics := value }
  | .keepDead => (boolOf? value).map ({ o with keepDead := · })
  | .output => some { o with output := value }

/-- Whether a character may stand in the name of a flag. -/
def isFlagChar (c : Char) : Bool := c != '=' && c != ' '

/-- The name of a flag and the value in the same argument, if there is one; none for other
arguments. -/
def splitFlag? (arg : String) : Option (String × Option String) :=
  match arg.toList with
  | '-' :: c :: cs =>
    let body := if c = '-' then cs else c :: cs
    let name := body.takeWhile isFlagChar
    let value := match body.dropWhile isFlagChar with
      | _ :: v => some (String.ofList v)
      | [] => none
    some (String.ofList name, value)
  | _ => none

/-! ## Requests -/

/-- The request with an argument that is no flag. -/
def Request.addWord (r : Request) (word : String) : Except UsageError Request :=
  match r.command with
  | some _ => .ok { r with files := r.files ++ [word] }
  | none =>
    match Command.ofName? word with
    | some c => .ok { r with command := some c }
    | none => .error (.unexpectedWord word)

/-- The request with a flag and its value. -/
def Request.addFlag (r : Request) (arg : String) (f : Flag) (value : String) :
    Except UsageError Request :=
  match r.options.set? f value with
  | some options => .ok { r with options }
  | none => .error (.badValue arg)

/-- The request with the arguments after two dashes, which are files and need a command. -/
def Request.addFiles (r : Request) (files : List String) : Except UsageError Request :=
  match r.command with
  | some _ => .ok { r with files := r.files ++ files }
  | none => .error (.unexpectedWord "--")

/-- What arguments ask for beyond a request. -/
def Request.addAll (r : Request) : List String → Except UsageError Request
  | [] => .ok r
  | arg :: args =>
    if arg = "--" then r.addFiles args
    else
      match splitFlag? arg with
      | none => do Request.addAll (← r.addWord arg) args
      | some (name, value) =>
        match Flag.ofName? r.command name, value with
        | none, _ => .error (.unknownFlag arg)
        | some f, some v => do Request.addAll (← r.addFlag arg f v) args
        | some .keepDead, none => do Request.addAll (← r.addFlag arg .keepDead "true") args
        | some f, none =>
          match args with
          | [] => .error (.missingValue arg)
          | v :: args => do Request.addAll (← r.addFlag arg f v) args

/-- What arguments ask for. -/
def Request.ofArguments (args : List String) : Except UsageError Request :=
  ({} : Request).addAll args

end StackLift.CommandLine
