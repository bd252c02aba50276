/-
# Stepping an instruction

Each effect is a computation on the state of the lifter: values are popped off the stack of the
current block, new ones are defined at its end and pushed, and control leaves it.
-/
import StackLift.Lifting.Effect
import StackLift.Lifting.State

namespace StackLift.Lift

/-! ## Loads and stores -/

/-- The entry of a table that an index picks. -/
def pick? (table : List α) (i : Int) : Option α := if i < 0 then none else table[i.toNat]?

/-- Pushes a constant. -/
def loadConst (i : Instruction) : Lift Unit := do
  match pick? (← get).code.consts i.arg with
  | some c => pushNew (.const c)
  | none => fail (.step i (.constIndex i.arg))

/-- The name of the local variable that the argument selects. -/
def localName (i : Instruction) : Lift String := do
  match pick? (← get).code.varnames i.arg with
  | some name => return name
  | none => fail (.step i (.localIndex i.arg))

/-- Pushes a local variable. -/
def loadLocal (i : Instruction) : Lift Unit := do
  let name ← localName i
  pushNew (.load name)

/-- Pushes a global. -/
def loadGlobal (i : Instruction) : Lift Unit := do
  match pick? (← get).code.names i.arg with
  | some name => pushNew (.global name)
  | none => fail (.step i (.globalIndex i.arg))

/-- Stores the top into a local variable, and pushes the store. -/
def storeLocal (i : Instruction) : Lift Unit := do
  let name ← localName i
  let v ← pop
  pushNew (.store name v)

/-! ## Operators -/

/-- Applies an operator to the top. -/
def unary (o : Operator) : Lift Unit := do
  let v ← pop
  operate o [v]

/-- Applies an operator to the two topmost values. -/
def binary (o : Operator) : Lift Unit := do
  let right ← pop
  let left ← pop
  operate o [left, right]

/-- Applies the comparison that the argument selects. -/
def compare (i : Instruction) : Lift Unit :=
  match pick? Operator.comparisons i.arg with
  | some o => binary o
  | none => fail (.step i (.comparison i.arg))

/-! ## Calls -/

/-- How many positional arguments a call takes: the low byte of its argument. -/
def positionalCount (arg : Int) : Nat := (arg % 256).toNat

/-- How many keyword arguments a call takes: the byte above. -/
def keywordCount (arg : Int) : Nat := (arg / 256 % 256).toNat

/-- The name that a keyword is, which has to be a string constant. -/
def keywordName (i : Instruction) (v : Operand) : Lift Text := do
  let g := (← get).graph
  match v.bind fun v => (g.definition v).expr with
  | some (.const (.str name)) => return name
  | some (.const _) => fail (.step i .keywordNotString)
  | _ => fail (.step i .keywordNotConstant)

/-- Pops `n` keywords with their values and puts them before others. -/
def popKeywords (i : Instruction) (n : Nat) (after : List Keyword) : Lift (List Keyword) :=
  match n with
  | 0 => pure after
  | n + 1 => do
    let value ← pop
    let key ← pop
    let name ← keywordName i key
    popKeywords i n (⟨name, value⟩ :: after)

/-- Pops `n` values and puts them before others. -/
def popArgs (n : Nat) (after : List Operand) : Lift (List Operand) :=
  match n with
  | 0 => pure after
  | n + 1 => do
    let v ← pop
    popArgs n (v :: after)

/-- Calls a function: keywords are on top, then come the positional arguments, then what is
called. -/
def call (i : Instruction) : Lift Unit := do
  let keywords ← popKeywords i (keywordCount i.arg) []
  let args ← popArgs (positionalCount i.arg) []
  let callee ← pop
  pushNew (.call (callee.map .value) args keywords)

/-! ## Jumps -/

/-- Checks the iterator on top in the header of a loop, and advances it at the beginning of the
body, which must not have been walked yet. -/
def forLoop (i : Instruction) : Lift Unit := do
  let iterator ← peek
  let exit ← ensure i.target
  let body ← ensure i.next
  let s ← get
  if ← orFault (s.processed.contains (s.graph.offset body)) then
    inconsistent (.bodyBeforeHeader (s.graph.offset body) (s.graph.offset s.current))
  operate .iterValid [iterator]
  let cond ← pop
  branchTo cond body exit
  pushIn body (.call (some (.operator .iterNext)) [iterator] [])

/-- Jumps on a truth value of the top. -/
def branch (pops jumpsOn : Bool) (i : Instruction) : Lift Unit := do
  let cond ← if pops then pop else peek
  if jumpsOn then
    let target ← ensure i.target
    let next ← ensure i.next
    branchTo cond target next
  else
    let next ← ensure i.next
    let target ← ensure i.target
    branchTo cond next target

/-- Jumps. -/
def jump (i : Instruction) : Lift Unit := do
  let target ← ensure i.target
  jumpTo target

/-- Returns the top, or nothing if it is the constant for none. -/
def ret : Lift Unit := do
  let v ← pop
  let g := (← get).graph
  match v.bind fun v => (g.definition v).expr with
  | some (.const .none) => terminate .retVoid
  | _ => terminate (.ret v)

/-! ## All of them -/

/-- Has an effect on the state. -/
def perform (i : Instruction) : Effect → Lift Unit
  | .nothing => pure ()
  | .loadConst => loadConst i
  | .loadLocal => loadLocal i
  | .loadGlobal => loadGlobal i
  | .storeLocal => storeLocal i
  | .unary o => unary o
  | .binary o => binary o
  | .compare => compare i
  | .call => call i
  | .forLoop => forLoop i
  | .branch pops jumpsOn => branch pops jumpsOn i
  | .jump => jump i
  | .ret => ret

/-- Steps an instruction. -/
def step (i : Instruction) : Lift Unit := do
  modify fun s => { s with line := i.line }
  let s ← get
  tell (.about .instruction "inst"
    [("block", .text (s.graph.nameOf s.current)), ("inst", .instruction i),
      ("op", .text i.op.name), ("stack", .int (s.graph.block s.current).stack.length)])
  match i.op.effect? with
  | some e => perform i e
  | none => fail (.unsupported i)

end StackLift.Lift
