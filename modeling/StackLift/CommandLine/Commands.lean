/-
# The commands

Listings are handled one after the other, and each is printed before the next is read.  An error
ends a command with code 1, a fault with code 2.
-/
import StackLift.Code.Disassembly
import StackLift.CommandLine.Arguments
import StackLift.CommandLine.Script
import StackLift.Dump
import StackLift.Handoff.Encode
import StackLift.Handoff.Flatten
import StackLift.Lifting.Run
import StackLift.Listing.Document

namespace StackLift.CommandLine

/-! ## Ends -/

/-- Ends a command with an error. -/
def fail (c : Command) (message : String) : Script :=
  .complain ("error: " ++ c.name ++ ": " ++ message) (.exit 1)

/-- How a stop that is no error is worded. -/
def faultMessage : Fault → String
  | .inconsistent i => "internal inconsistency: " ++ i.message
  | .differentBases => "set: different bases"
  | .outOfRange => "index out of range"

/-- Ends a command with a fault. -/
def crash (message : String) : Script := .complain ("fault: " ++ message) (.exit 2)

/-- Ends a command where an operation stopped. -/
def halt (c : Command) (message : ε → String) : Stop ε → Script
  | .error e => fail c (message e)
  | .fault f => crash (faultMessage f)
  | .endless => crash "no end in sight"

/-- Why a file cannot be opened. -/
def openError (path : String) (e : FileError) : String := "open " ++ path ++ ": " ++ e.message

/-- Why a file cannot be read.  A directory can be opened. -/
def readError (path : String) (e : FileError) : String :=
  if e = .isDirectory then "read " ++ path ++ ": " ++ e.message else openError path e

/-! ## Telling events -/

/-- A detail of an event in a line. -/
def fieldText : Trace.Field → String
  | .null => "none"
  | .int n => toString n
  | .bool b => toString b
  | .text s => Text.quoteString s
  | .texts l => nameList (l.map Text.quoteString)
  | .instruction i => Text.quoteString i.text

/-- An event in a line. -/
def eventLine (e : Trace.Event) : String :=
  let title := if e.title.isEmpty then "done" else e.title
  " ".intercalate (title :: e.fields.map fun (k, v) => k ++ "=" ++ fieldText v)

/-- Whether events are told to a file. -/
def Options.logsToFile (o : Options) : Bool := o.log ≠ "" && o.log ≠ "stderr"

/-- Tells the events that are asked for. -/
def tell (o : Options) (events : List Trace.Event) (next : Script) : Script :=
  let lines := (events.filter (·.isTold o.topics)).map eventLine
  if o.logsToFile then .append o.log (Text.ofString (String.join (lines.map (· ++ "\n")))) next
  else .complainAll lines next

/-- Makes the file that events are told to. -/
def openLog (c : Command) (o : Options) (next : Script) : Script :=
  if o.logsToFile then
    .write o.log [] fun
      | none => next
      | some e => fail c ("before: stackssa: open log file: " ++ openError o.log e)
  else next

/-! ## Loading and compiling -/

/-- The function that bytes describe. -/
def codeOf (content : Text) : Except Listing.SourceError Code :=
  match content.toString? with
  | some source => Listing.compileSource source
  | none => .error .malformed

/-- Reads the listing of a file. -/
def load (c : Command) (doing path : String) (next : Code → Script) : Script :=
  .read path fun
    | .error e => fail c (doing ++ ": read file: " ++ readError path e)
    | .ok content =>
      match codeOf content with
      | .error e => fail c (doing ++ ": " ++ path ++ ": " ++ e.message)
      | .ok code => next code

/-- Compiles the listing of a file. -/
def compileFile (c : Command) (o : Options) (path : String) (next : Lifter → Script) : Script :=
  load c ("compile " ++ path ++ ": load listing") path fun code =>
    match Lifter.compile code { keepDead := o.keepDead } with
    | .error stop s => tell o s.events.toList
        (halt c (fun e => "compile " ++ path ++ ": " ++ Lifter.compileMessage code e) stop)
    | .ok () s => tell o s.events.toList (next s)

/-- Compiles and prints listings one after the other. -/
def eachFile (c : Command) (o : Options) (show? : Lifter → Except String Text) :
    List String → Script
  | [] => .exit 0
  | path :: paths => compileFile c o path fun s =>
      match show? s with
      | .error message => fail c (path ++ ": " ++ message)
      | .ok t => .print t (eachFile c o show? paths)

/-! ## What is printed -/

/-- The graph of a function under its name and parameters. -/
def graphText (s : Lifter) : Except String Text := do
  let t ← (Dump.text s.graph s.dominators .graph).mapError (·.message)
  let title := "func " ++ s.code.name ++ "(" ++ nameList s.code.signature.args ++ ")\n"
  .ok (Text.ofString title ++ t)

/-- The names of blocks in brackets. -/
def blockList (g : Graph) (bs : List BlockId) : String := nameList (bs.map g.nameOf)

/-- The dominators of each block, the backbone, and the dead blocks if there are some. -/
def dominatorText (s : Lifter) : String :=
  let g := s.graph
  let dominators (b : BlockId) : List BlockId :=
    match s.dominators with
    | some d => d.of b
    | none => []
  let lines := g.live.map fun b => "\t" ++ g.nameOf b ++ ": " ++ blockList g (dominators b) ++ "\n"
  "func " ++ s.code.name ++ "\n" ++ String.join lines ++
    "backbone: " ++ blockList g s.backbone ++ "\n" ++
    if s.dead.isEmpty then "" else "dead: " ++ blockList g s.dead ++ "\n"

/-- Constants in brackets. -/
def constantList (cs : List Constant) : Text :=
  Text.ofString "[" ++ Dump.joinWith " " (cs.map Constant.text) ++ Text.ofString "]"

/-- The tables of a function and its disassembly. -/
def assemblyText (path : String) (code : Code) : Except Fault Text := do
  let body ← code.disassemble
  .ok (Text.ofString (path ++ ": " ++ code.name ++ " args " ++ nameList code.signature.args ++
    " consts ") ++ constantList code.consts ++ Text.ofString "\n" ++ body)

/-! ## Commands -/

/-- Prints assembled listings one after the other. -/
def assemble : List String → Script
  | [] => .exit 0
  | path :: paths => load .assembly ("load " ++ path) path fun code =>
      match assemblyText path code with
      | .error f => crash (faultMessage f)
      | .ok t => .print t (assemble paths)

/-- Writes the hand-off form of a compiled listing. -/
def writeHandoff (o : Options) (s : Lifter) : Script :=
  match Handoff.flatten s.code.name s.code.signature.args s.graph with
  | .error stop => halt .handoff (fun e => "encode: " ++ e.message) stop
  | .ok f =>
    let bytes := f.encode
    if o.output.isEmpty then .print bytes (.exit 0)
    else
      .write o.output bytes fun
        | none => tell o [⟨.message none, "exported", [("func", .text f.name),
            ("size", .int bytes.length), ("output", .text o.output)]⟩] (.exit 0)
        | some e => fail .handoff ("write output: " ++ openError o.output e)

/-- Writes the hand-off form of the one listing that there must be. -/
def handOff (o : Options) : List String → Script
  | [path] => compileFile .handoff o path (writeHandoff o)
  | _ => fail .handoff "expected exactly one listing"

/-- What a command does. -/
def Command.script (c : Command) (o : Options) (files : List String) : Script :=
  openLog c o <|
    match c with
    | .graphs => eachFile c o graphText files
    | .dominators => eachFile c o (fun s => .ok (Text.ofString (dominatorText s))) files
    | .assembly => assemble files
    | .handoff => handOff o files

/-- What is printed if no command is given. -/
def usage : String :=
  "usage: [--log file] [-v topics] [--keep-dead] cfg|dom|asm|export [-o file] listing...\n"

/-- What arguments make the program do. -/
def script (args : List String) : Script :=
  match Request.ofArguments args with
  | .error e => .complain ("error: " ++ e.message) (.exit 1)
  | .ok r =>
    match r.command with
    | some c => c.script r.options r.files
    | none => .print (Text.ofString usage) (.exit 0)

end StackLift.CommandLine
