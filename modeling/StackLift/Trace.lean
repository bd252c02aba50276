/-
# Traces

What happens while a function is lifted is told by events.  Spans are opened and closed; a
message belongs to a topic, or is always told.
-/
import StackLift.Instruction

namespace StackLift.Trace

/-- What a message is about. -/
inductive Topic
  | instruction
  | block
  | phi
  | dominators
  | deadBlocks
  deriving DecidableEq, Repr

/-- The name by which a topic is asked for. -/
def Topic.name : Topic → String
  | .instruction => "symbolic_inst"
  | .block => "symbolic_block"
  | .phi => "phi"
  | .dominators => "dom"
  | .deadBlocks => "dead"

/-- A detail of an event. -/
inductive Field
  | null
  | int (n : Int)
  | bool (b : Bool)
  | text (s : String)
  | texts (l : List String)
  | instruction (i : Instruction)
  deriving DecidableEq, Repr

/-- The part an event plays. -/
inductive Kind
  | opens
  | closes
  /-- A message, told only to those who ask for its topic if it has one. -/
  | message (topic : Option Topic)
  deriving DecidableEq, Repr

/-- Something that happened. -/
structure Event where
  kind : Kind
  title : String
  fields : List (String × Field)
  deriving DecidableEq, Repr

/-- A message about a topic. -/
def Event.about (topic : Topic) (title : String) (fields : List (String × Field)) : Event :=
  ⟨.message (some topic), title, fields⟩

/-- The opening of a span. -/
def Event.opens (title : String) (fields : List (String × Field)) : Event := ⟨.opens, title, fields⟩

/-- The closing of a span, with the error it ended in. -/
def Event.closes (error : Option String) : Event :=
  ⟨.closes, "", [("err", match error with | some e => .text e | none => .null)]⟩

/-! ## Asking for topics -/

/-- A rule of a request: names of topics with a plus sign between them, `*` for all.  A place may
stand before them with an equals sign.  Behind an exclamation mark the topics are left out. -/
structure Rule where
  leavesOut : Bool
  place : String
  names : List String
  deriving DecidableEq, Repr

/-- The rule that is written, without its exclamation mark. -/
def Rule.ofChars (leavesOut : Bool) (cs : List Char) : Rule :=
  match cs.dropWhile (· != '=') with
  | _ :: names => ⟨leavesOut, String.ofList (cs.takeWhile (· != '=')),
      (String.ofList names).splitOn "+"⟩
  | [] => ⟨leavesOut, "*", (String.ofList cs).splitOn "+"⟩

/-- The rule that is written. -/
def Rule.ofString (s : String) : Rule :=
  match s.toList with
  | '!' :: cs => .ofChars true cs
  | cs => .ofChars false cs

/-- Whether a rule holds in all places; no event has another place. -/
def Rule.isEverywhere (r : Rule) : Bool := r.place == "" || r.place == "*"

/-- Whether a rule speaks of a topic. -/
def Rule.isAbout (r : Rule) (topic : Topic) : Bool :=
  r.isEverywhere && r.names.any fun name => name == "*" || name == topic.name

/-- Whether rules ask for a topic.  The last rule about it counts; without one it is asked for if
the first rule leaves something out. -/
def Rule.select (rules : List Rule) (topic : Topic) : Bool :=
  match rules.reverse.find? (·.isAbout topic) with
  | some r => !r.leavesOut
  | none => rules.head?.any (·.leavesOut)

/-- Whether a request, rules with commas between them, asks for a topic. -/
def selects (request : String) (topic : Topic) : Bool :=
  Rule.select ((request.splitOn ",").map Rule.ofString) topic

/-- Whether an event is told to those who ask for the given topics. -/
def Event.isTold (request : String) (e : Event) : Bool :=
  match e.kind with
  | .message (some topic) => selects request topic
  | _ => true

end StackLift.Trace
