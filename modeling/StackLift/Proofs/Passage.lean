/-
# The states that a lift passes through

A computation on states tells only how it ends.  A passage is a computation that also shows the
states that it passes through.  The computations of the lifter are written here as passages, cut
down to single operations on the graph; that each of them still is the computation it was written
for is a lemma of its own.

* `Passage` : a computation with the states that it passes through;
* `Passage.Always` : a property holds wherever a passage goes, and where it ends;
* `Passing.all`, `Lifter.passage` : a whole lift as a passage;
* `Lifter.result_passage` : it is the lift.
-/
import StackLift.Proofs.Passes
import StackLift.Proofs.Stability

namespace StackLift

/-- A computation that shows the states that it passes through. -/
def Passage (ε σ α : Type) : Type := σ → List σ × EStateM.Result ε σ α

namespace Passage

variable {ε σ α β : Type} {I : σ → Prop} {s : σ}

/-- The states that are passed through, in order. -/
def states (p : Passage ε σ α) (s : σ) : List σ := (p s).1

/-- The computation itself. -/
def result (p : Passage ε σ α) : EStateM ε σ α := fun s => (p s).2

/-- A computation that shows some states on its way, and the one that it ends in. -/
def via (between : σ → List σ) (x : EStateM ε σ α) : Passage ε σ α := fun s =>
  (between s ++ [after (x s)], x s)

/-- A computation that shows only the state that it ends in. -/
def stride (x : EStateM ε σ α) : Passage ε σ α := via (fun _ => []) x

/-- Two computations, the second one of which starts where the first one ends. -/
protected def bind (p : Passage ε σ α) (k : α → Passage ε σ β) : Passage ε σ β := fun s =>
  match p s with
  | (seen, .ok a s') => (seen ++ (k a).states s', (k a).result s')
  | (seen, .error e s') => (seen, .error e s')

instance : Monad (Passage ε σ) where
  pure a := fun s => ([], .ok a s)
  bind := Passage.bind

instance : MonadLift (EStateM ε σ) (Passage ε σ) := ⟨stride⟩

/-! ## Results -/

/-- Which states are shown on the way has no bearing on the result. -/
@[simp]
theorem result_via (between : σ → List σ) (x : EStateM ε σ α) : (via between x).result = x := rfl

@[simp]
theorem result_stride (x : EStateM ε σ α) : (stride x).result = x := rfl

/-- A computation in a passage shows the state that it ends in, and is the same computation. -/
@[simp]
theorem result_liftM (x : EStateM ε σ α) : (liftM x : Passage ε σ α).result = x := rfl

@[simp]
theorem result_get : (get : Passage ε σ σ).result = get := rfl

@[simp]
theorem result_set (s : σ) : (set s : Passage ε σ PUnit).result = set s := rfl

@[simp]
theorem result_modify (f : σ → σ) : (modify f : Passage ε σ PUnit).result = modify f := rfl

@[simp]
theorem result_pure (a : α) : (pure a : Passage ε σ α).result = pure a := rfl

/-- A sequence of passages is the sequence of their computations. -/
@[simp]
theorem result_bind (p : Passage ε σ α) (k : α → Passage ε σ β) :
    (p >>= k).result = p.result >>= fun a => (k a).result := by
  funext s
  change (Passage.bind p k s).2 = _
  unfold Passage.bind
  rcases hp : p s with ⟨seen, ⟨a, s'⟩ | ⟨e, s'⟩⟩
  · have hresult : p.result s = .ok a s' := congrArg Prod.snd hp
    rw [bind_of_ok hresult]
  · have hresult : p.result s = .error e s' := congrArg Prod.snd hp
    rw [bind_of_error hresult]

/-- A loop over passages is the loop over their computations. -/
@[simp]
theorem result_forM (l : List α) (f : α → Passage ε σ PUnit) :
    (forM l f).result = forM l fun a => (f a).result := by
  induction l with
  | nil => rfl
  | cons a l ih => simp only [List.forM_cons, result_bind, ih]

@[simp]
theorem result_ite (c : Prop) [Decidable c] (p q : Passage ε σ α) :
    (if c then p else q).result = if c then p.result else q.result := apply_ite result c p q

/-! ## Properties along a passage -/

/-- Whether a property holds of the states that are passed through and of the one at the end. -/
def Always (I : σ → Prop) (p : Passage ε σ α) (s : σ) : Prop :=
  (∀ s' ∈ p.states s, I s') ∧ I (after (p.result s))

/-- Nothing is passed through on the way to a value that is there. -/
theorem always_pure (h : I s) (a : α) : Always I (pure a : Passage ε σ α) s :=
  ⟨fun _ hmem => absurd hmem List.not_mem_nil, h⟩

/-- The states on the way are to be checked, and the last one. -/
theorem always_via {between : σ → List σ} {x : EStateM ε σ α} (hbetween : ∀ s' ∈ between s, I s')
    (h : I (after (x s))) : Always I (via between x) s := by
  refine ⟨fun s' hmem => ?_, h⟩
  rcases List.mem_append.1 hmem with hmem | hmem
  · exact hbetween s' hmem
  · exact List.mem_singleton.1 hmem ▸ h

/-- A computation that shows only its last state is checked there. -/
theorem always_stride {x : EStateM ε σ α} (h : I (after (x s))) : Always I (stride x) s :=
  always_via (fun _ hmem => absurd hmem List.not_mem_nil) h

/-- A property holds along two passages if it does along the first one and, from where that ends,
along the second one. -/
theorem Always.bind {p : Passage ε σ α} {k : α → Passage ε σ β} (hp : Always I p s)
    (hk : ∀ a s', p.result s = .ok a s' → I s' → Always I (k a) s') : Always I (p >>= k) s := by
  have hafter : I (after ((p >>= k).result s)) := by
    rw [result_bind]
    exact after_bind hp.2 fun a s' hok hs' => (hk a s' hok hs').2
  refine ⟨fun s'' hmem => ?_, hafter⟩
  change s'' ∈ (Passage.bind p k s).1 at hmem
  unfold Passage.bind at hmem
  rcases heq : p s with ⟨seen, ⟨a, s'⟩ | ⟨e, s'⟩⟩
  · have hseen : p.states s = seen := congrArg Prod.fst heq
    have hok : p.result s = .ok a s' := congrArg Prod.snd heq
    have hs' : I s' := by simpa [hok, after] using hp.2
    rw [heq] at hmem
    rcases List.mem_append.1 hmem with hmem | hmem
    · exact hp.1 s'' (hseen ▸ hmem)
    · exact (hk a s' hok hs').1 s'' hmem
  · have hseen : p.states s = seen := congrArg Prod.fst heq
    rw [heq] at hmem
    exact hp.1 s'' (hseen ▸ hmem)

/-- Whether a passage from a state with one property goes only through states with another one, and
has a result with a third one if it has a result at all. -/
def Safe (I P : σ → Prop) (p : Passage ε σ α) (Q : α → σ → Prop) : Prop :=
  ∀ s, P s → Always I p s ∧ ∀ a s', p.result s = .ok a s' → Q a s'

variable {P : σ → Prop} {Q : α → σ → Prop} {R : β → σ → Prop}

/-- A passage that begins where another one has ended safely. -/
theorem Safe.bind {p : Passage ε σ α} {k : α → Passage ε σ β} (hp : Safe I P p Q)
    (hk : ∀ a, Safe I (Q a) (k a) R) : Safe I P (p >>= k) R := by
  intro s hs
  obtain ⟨halways, hok⟩ := hp s hs
  refine ⟨halways.bind fun a s' ha _ => (hk a s' (hok a s' ha)).1, fun b s'' hb => ?_⟩
  rw [result_bind] at hb
  obtain ⟨a, s', ha, hb⟩ := bind_eq_ok.1 hb
  exact (hk a s' (hok a s' ha)).2 b s'' hb

/-- More may be known of the state at the beginning. -/
theorem Safe.weaken {P' : σ → Prop} {p : Passage ε σ α} (hp : Safe I P p Q)
    (hP : ∀ s, P' s → P s) : Safe I P' p Q := fun s hs => hp s (hP s hs)

/-- Less may be asked of the result. -/
theorem Safe.imp {Q' : α → σ → Prop} {p : Passage ε σ α} (hp : Safe I P p Q)
    (hQ : ∀ a s, Q a s → Q' a s) : Safe I P p Q' :=
  fun s hs => ⟨(hp s hs).1, fun a s' hok => hQ a s' ((hp s hs).2 a s' hok)⟩

/-- What holds along a passage holds of its result. -/
theorem safe_of_always {p : Passage ε σ α} (h : ∀ s, P s → Always I p s) :
    Safe I P p fun _ => I := by
  refine fun s hs => ⟨h s hs, fun a s' hok => ?_⟩
  have hafter := (h s hs).2
  rwa [hok] at hafter

/-- A value that is there is safe if it has the property. -/
theorem safe_pure {a : α} (hI : ∀ s, P s → I s) (hQ : ∀ s, P s → Q a s) :
    Safe I P (pure a : Passage ε σ α) Q := by
  intro s hs
  refine ⟨always_pure (hI s hs) a, fun b s' hb => ?_⟩
  cases hb
  exact hQ s hs

/-- A single computation, of which the end and the result are to be checked. -/
theorem safe_stride {x : EStateM ε σ α} (hI : ∀ s, P s → I (after (x s)))
    (hQ : ∀ s, P s → ∀ a s', x s = .ok a s' → Q a s') : Safe I P (stride x) Q :=
  fun s hs => ⟨always_stride (hI s hs), hQ s hs⟩

/-- A look at the state tells what it is. -/
theorem safe_get (hI : ∀ s, P s → I s) :
    Safe I P (get : Passage ε σ σ) fun a s => a = s ∧ P s := by
  intro s hs
  refine ⟨always_stride (hI s hs), fun a s' ha => ?_⟩
  cases ha
  exact ⟨rfl, hs⟩

/-- A loop in which each round begins and ends with the same property. -/
theorem safe_forM {l : List α} {f : α → Passage ε σ PUnit} (hI : ∀ s, P s → I s)
    (hf : ∀ a ∈ l, Safe I P (f a) fun _ => P) : Safe I P (forM l f) fun _ => P := by
  induction l with
  | nil => exact safe_pure hI fun _ hs => hs
  | cons a l ih =>
    rw [List.forM_cons]
    exact (hf a List.mem_cons_self).bind fun _ => ih fun d hd => hf d (List.mem_cons_of_mem a hd)

end Passage

/-- A computation of the lifter that shows the states that it passes through. -/
abbrev Passing := Passage (Stop LiftError) Lifter

namespace Passing

open Passage

/-! ## Instructions -/

/-- Makes a value in a block, and pushes it there. -/
def pushIn (b : BlockId) (e : Expr) : Passing Unit := do
  let v ← Lift.defineIn b e
  Lift.onGraph fun g => ((), g.push b (some v))

/-- Making and pushing is emitting. -/
@[simp]
theorem result_pushIn (b : BlockId) (e : Expr) : (pushIn b e).result = Lift.pushIn b e := by
  simp [pushIn, Lift.pushIn]

/-- Makes a value in the block that is walked, and pushes it. -/
def pushNew (e : Expr) : Passing Unit := do pushIn (← get).current e

@[simp]
theorem result_pushNew (e : Expr) : (pushNew e).result = Lift.pushNew e := by
  simp [pushNew, Lift.pushNew]

/-- A value that depends on an entry of a table is pushed, or there is no such entry. -/
def load {α : Type} (entry : Option α) (value : α → Expr) (e : LiftError) : Passing Unit :=
  entry.elim (stride (Lift.fail e)) fun a => pushNew (value a)

/-- Pushes the constant that an argument picks. -/
def loadConst (i : Instruction) : Passing Unit := do
  load (Lift.pick? (← get).code.consts i.arg) .const (.step i (.constIndex i.arg))

/-- The constant is looked up as the instruction does, also where there is none. -/
@[simp]
theorem result_loadConst (i : Instruction) : (loadConst i).result = Lift.loadConst i := by
  funext s
  simp only [loadConst, load, Lift.loadConst, result_bind, result_get, get_bind]
  cases Lift.pick? s.code.consts i.arg with
  | none => rfl
  | some c => simp

/-- Pushes the local variable that an argument picks. -/
def loadLocal (i : Instruction) : Passing Unit := do
  let name ← Lift.localName i
  pushNew (.load name)

@[simp]
theorem result_loadLocal (i : Instruction) : (loadLocal i).result = Lift.loadLocal i := by
  simp [loadLocal, Lift.loadLocal]

/-- Pushes the global name that an argument picks. -/
def loadGlobal (i : Instruction) : Passing Unit := do
  load (Lift.pick? (← get).code.names i.arg) .global (.step i (.globalIndex i.arg))

/-- The name is looked up as the instruction does, also where there is none. -/
@[simp]
theorem result_loadGlobal (i : Instruction) : (loadGlobal i).result = Lift.loadGlobal i := by
  funext s
  simp only [loadGlobal, load, Lift.loadGlobal, result_bind, result_get, get_bind]
  cases Lift.pick? s.code.names i.arg with
  | none => rfl
  | some name => simp

/-- Pops a value and stores it in a local variable; the name is looked up before. -/
def storeLocal (i : Instruction) : Passing Unit := do
  let name ← Lift.localName i
  let v ← Lift.pop
  pushNew (.store name v)

@[simp]
theorem result_storeLocal (i : Instruction) : (storeLocal i).result = Lift.storeLocal i := by
  simp [storeLocal, Lift.storeLocal]

/-- Pops an operand, and pushes what the operator makes of it. -/
def unary (o : Operator) : Passing Unit := do
  let v ← Lift.pop
  pushNew (.call (some (.operator o)) [v] [])

@[simp]
theorem result_unary (o : Operator) : (unary o).result = Lift.unary o := by
  simp [unary, Lift.unary, Lift.operate]

/-- Pops the right operand and then the left one, and pushes what the operator makes of them. -/
def binary (o : Operator) : Passing Unit := do
  let right ← Lift.pop
  let left ← Lift.pop
  pushNew (.call (some (.operator o)) [left, right] [])

@[simp]
theorem result_binary (o : Operator) : (binary o).result = Lift.binary o := by
  simp [binary, Lift.binary, Lift.operate]

/-- Does as a binary operator does, if the argument picks a comparison. -/
def compare (i : Instruction) : Passing Unit :=
  (Lift.pick? Operator.comparisons i.arg).elim
    (stride (Lift.fail (.step i (.comparison i.arg)))) binary

/-- An argument that picks no comparison is refused before anything is popped. -/
@[simp]
theorem result_compare (i : Instruction) : (compare i).result = Lift.compare i := by
  unfold compare Lift.compare
  cases Lift.pick? Operator.comparisons i.arg with
  | none => rfl
  | some o => exact result_binary o

/-- Pops keywords, each with its value on top of its name. -/
def popKeywords (i : Instruction) : Nat → List Keyword → Passing (List Keyword)
  | 0, after => pure after
  | n + 1, after => do
    let value ← Lift.pop
    let key ← Lift.pop
    let name ← Lift.keywordName i key
    popKeywords i n (⟨name, value⟩ :: after)

/-- Each round pops a value and a name, as the loop does. -/
@[simp]
theorem result_popKeywords (i : Instruction) (n : Nat) (after : List Keyword) :
    (popKeywords i n after).result = Lift.popKeywords i n after := by
  induction n generalizing after with
  | zero => rfl
  | succ n ih => simp [popKeywords, Lift.popKeywords, ih]

/-- Pops arguments, the last one first. -/
def popArgs : Nat → List Operand → Passing (List Operand)
  | 0, after => pure after
  | n + 1, after => do
    let v ← Lift.pop
    popArgs n (v :: after)

/-- Each round pops one argument, as the loop does. -/
@[simp]
theorem result_popArgs (n : Nat) (after : List Operand) :
    (popArgs n after).result = Lift.popArgs n after := by
  induction n generalizing after with
  | zero => rfl
  | succ n ih => simp [popArgs, Lift.popArgs, ih]

/-- Pops keywords, arguments and the callee, and pushes the call. -/
def call (i : Instruction) : Passing Unit := do
  let keywords ← popKeywords i (Lift.keywordCount i.arg) []
  let args ← popArgs (Lift.positionalCount i.arg) []
  let callee ← Lift.pop
  pushNew (.call (callee.map .value) args keywords)

@[simp]
theorem result_call (i : Instruction) : (call i).result = Lift.call i := by
  simp [call, Lift.call]

/-- Ends a block with the check of its iterator, and begins the body with the next element. -/
def forLoop (i : Instruction) : Passing Unit := do
  let iterator ← Lift.peek
  let exit ← Lift.ensure i.target
  let body ← Lift.ensure i.next
  let s ← get
  if ← Lift.orFault (s.processed.contains (s.graph.offset body)) then
    Lift.inconsistent (.bodyBeforeHeader (s.graph.offset body) (s.graph.offset s.current))
  pushNew (.call (some (.operator .iterValid)) [iterator] [])
  let cond ← Lift.pop
  Lift.branchTo cond body exit
  pushIn body (.call (some (.operator .iterNext)) [iterator] [])

@[simp]
theorem result_forLoop (i : Instruction) : (forLoop i).result = Lift.forLoop i := by
  simp [forLoop, Lift.forLoop, Lift.operate]

/-- Takes the condition, asks for both blocks in order of the branch, and leaves for one of them. -/
def branch (pops jumpsOn : Bool) (i : Instruction) : Passing Unit := do
  let cond ← if pops then Lift.pop else Lift.peek
  if jumpsOn then
    let target ← Lift.ensure i.target
    let next ← Lift.ensure i.next
    Lift.branchTo cond target next
  else
    let next ← Lift.ensure i.next
    let target ← Lift.ensure i.target
    Lift.branchTo cond next target

@[simp]
theorem result_branch (pops jumpsOn : Bool) (i : Instruction) :
    (branch pops jumpsOn i).result = Lift.branch pops jumpsOn i := by
  simp [branch, Lift.branch]

/-- Asks for a block and leaves for it. -/
def jump (i : Instruction) : Passing Unit := do
  let target ← Lift.ensure i.target
  Lift.jumpTo target

@[simp]
theorem result_jump (i : Instruction) : (jump i).result = Lift.jump i := by
  simp [jump, Lift.jump]

/-- Pops a value and returns it, or returns nothing where it is the constant that stands for that.
-/
def ret : Passing Unit := do
  let v ← Lift.pop
  let g := (← get).graph
  if (v.bind fun v => (g.definition v).expr) = some (.const .none) then Lift.terminate .retVoid
  else Lift.terminate (.ret v)

/-- The two ways to return are told apart by the value that was popped. -/
@[simp]
theorem result_ret : ret.result = Lift.ret := by
  funext s
  simp only [ret, result_bind, result_liftM]
  cases hpop : Lift.pop s with
  | error e s₁ => rw [bind_of_error hpop, Lift.ret, bind_of_error hpop]
  | ok v s₁ =>
    rw [bind_of_ok hpop, Lift.ret, bind_of_ok hpop]
    simp only [result_get, result_ite, result_liftM, get_bind]
    cases v.bind fun v => (s₁.graph.definition v).expr with
    | none => rfl
    | some e =>
      cases e with
      | const c =>
        cases c <;> rfl
      | _ => rfl

/-- The passage of an instruction with an effect. -/
def perform (i : Instruction) : Effect → Passing Unit
  | .nothing => pure ()
  | .loadConst => loadConst i
  | .loadLocal => loadLocal i
  | .loadGlobal => loadGlobal i
  | .storeLocal => storeLocal i
  | .unary o => unary o
  | .binary o => binary o
  | .compare => compare i
  | .call => call i
  | .forLoop => forLoop i
  | .branch pops jumpsOn => branch pops jumpsOn i
  | .jump => jump i
  | .ret => ret

/-- Each effect is the computation that it was written for. -/
@[simp]
theorem result_perform (i : Instruction) (e : Effect) :
    (perform i e).result = Lift.perform i e := by
  cases e <;> simp [perform, Lift.perform]

/-- Notes the line of an instruction, tells about it, and performs its effect if it has one. -/
def step (i : Instruction) : Passing Unit := do
  modify fun s => { s with line := i.line }
  let s ← get
  Lift.tell (.about .instruction "inst"
    [("block", .text (s.graph.nameOf s.current)), ("inst", .instruction i),
      ("op", .text i.op.name), ("stack", .int (s.graph.block s.current).stack.length)])
  i.op.effect?.elim (Lift.fail (.unsupported i)) (perform i)

/-- An instruction without an effect is refused after it was told about. -/
@[simp]
theorem result_step (i : Instruction) : (step i).result = Lift.step i := by
  unfold step Lift.step
  cases i.op.effect? with
  | none => simp
  | some e => simp

/-! ## Walking -/

/-- Pushes the arguments of the function, on the line before its first one. -/
def pushArguments : Passing Unit := do
  let code := (← get).code
  modify fun s => { s with line := Number.wrap (code.firstLine - 1) }
  code.signature.args.zipIdx.forM fun a => pushNew (.arg a.2 a.1)

@[simp]
theorem result_pushArguments : pushArguments.result = Lift.pushArguments := by
  simp [pushArguments, Lift.pushArguments]

/-- Steps instructions until the block is left, or another block begins, which is jumped to. -/
def walkFrom (find : Int → Option Instruction) (offset : Int) : (fuel : Nat) → Passing Unit
  | 0 => stride (throw .endless)
  | fuel + 1 =>
    (find offset).elim
      (do
        let s ← get
        Lift.fail (.fallsOff (s.graph.offset s.current) offset))
      fun i => do
        step i
        let s ← get
        if (s.graph.block s.current).isTerminated then pure ()
        else (s.graph.find? i.next).elim (walkFrom find i.next fuel) fun b => Lift.jumpTo b

/-- Each step is that of the walk, and it goes on where the walk does. -/
@[simp]
theorem result_walkFrom (find : Int → Option Instruction) (offset : Int) (fuel : Nat) :
    (walkFrom find offset fuel).result = Lift.walkFrom find offset fuel := by
  induction fuel generalizing offset with
  | zero => rfl
  | succ fuel ih =>
    unfold walkFrom Lift.walkFrom
    cases find offset with
    | none => simp
    | some i =>
      simp only [Option.elim_some, result_bind, result_step, result_get, result_ite]
      refine congrArg _ (funext fun _ => congrArg _ (funext fun s => ?_))
      cases s.graph.find? i.next with
      | none => simp [ih]
      | some b => simp

/-- Walks a block that was entered. -/
def walkOn (find : Int → Option Instruction) (offset : Int) (b : BlockId) : Passing Unit := do
  walkFrom find offset ((← get).code.instructions.length + 1)
  let s ← get
  let x := s.graph.block b
  Lift.tell (.about .block "block done"
    [("block", .text (blockName offset)), ("code", .int x.code.length),
      ("stack", .int x.stack.length), ("phis", .int x.phis.size),
      ("succs", .texts (x.succs.map s.graph.nameOf))])

/-- Enters the block at an offset, with the arguments of the function if it is the entry. -/
def walk (find : Int → Option Instruction) (offset : Int) : Passing Unit := do
  let b ← Lift.ensure offset
  modify fun s => { s with current := b }
  Lift.tell (.about .block "block start" [("block", .text (blockName offset))])
  if offset = 0 then pushArguments
  walkOn find offset b

/-- The walk of a block, with what is told before and after it. -/
@[simp]
theorem result_walk (find : Int → Option Instruction) (offset : Int) :
    (walk find offset).result = Lift.walk find offset := by
  simp [walk, walkOn, Lift.walk]

/-- Walks the blocks that are to be walked, in order, each of them once. -/
def traverse (find : Int → Option Instruction) : (fuel : Nat) → Passing Unit
  | 0 => stride (throw .endless)
  | fuel + 1 => do
    let s ← get
    s.pending.first?.elim (pure ()) fun offset => do
      let pending ← Lift.orFault (s.pending.erase offset)
      set { s with pending }
      if ← Lift.orFault (s.processed.contains offset) then traverse find fuel
      else
        match s.processed.insert offset with
        | .ok () processed => modify fun s => { s with processed }
        | .error f _ => stride (throw (.fault f))
        walk find offset
        traverse find fuel

/-- Each round drops an offset or walks the block there, as the loop does. -/
@[simp]
theorem result_traverse (find : Int → Option Instruction) (fuel : Nat) :
    (traverse find fuel).result = Lift.traverse find fuel := by
  induction fuel with
  | zero => rfl
  | succ fuel ih =>
    unfold traverse Lift.traverse
    rw [result_bind]
    refine congrArg _ (funext fun s => ?_)
    cases s.pending.first? with
    | none => rfl
    | some offset =>
      cases hinsert : s.processed.insert offset <;> simp [hinsert, ih]

end Passing

/-! ## Passes -/

/-- The graphs on the way when blocks are removed one by one. -/
def Graph.discards (g : Graph) : List BlockId → List Graph
  | [] => []
  | b :: dead => g.discard b :: (g.discard b).discards dead

namespace PhiCompletion

open Passage

/-- A step of the completion of phis that shows the states that it passes through. -/
abbrev Passing := Passage (Stop StackError) State

/-- The graph that a phi gets its value in: the predecessor has its phis by then. -/
def feedPassing (v : ValueId) (slot : Int) (pred : BlockId) : Passing Unit :=
  via
    (fun s => (s.graph.exitSlotAt pred (s.graph.lineOf pred) slot).toOption.toList.map fun r =>
      { s with graph := r.2 })
    (feed v slot pred)

@[simp]
theorem result_feedPassing (v : ValueId) (slot : Int) (pred : BlockId) :
    (feedPassing v slot pred).result = feed v slot pred := rfl

/-- Lets the value of a slot flow into its phi from one predecessor after the other. -/
def completePassing (maxDepth : Int) (v : ValueId) (p : Phi) : Passing Unit := do
  let g := (← get).graph
  let d := g.definition v
  let preds := (g.block d.block).preds
  if preds.isEmpty then stride (throw (.error (.underflow (g.offset d.block) p.slot d.line)))
  if maxDepth ≤ p.slot then stride (throw (.error (.tooDeep (g.offset d.block) p.slot)))
  preds.forM (feedPassing v p.slot)
  modify fun s => { s with graph := s.graph.markComplete v }

/-- A phi that cannot be completed is refused before anything flows into it. -/
@[simp]
theorem result_completePassing (maxDepth : Int) (v : ValueId) (p : Phi) :
    (completePassing maxDepth v p).result = complete maxDepth v p := by
  simp [completePassing, complete]

/-- Completes the phis of the queue, those that are added meanwhile included. -/
def drainPassing (maxDepth : Int) : (fuel : Nat) → Passing Unit
  | 0 => stride (throw .endless)
  | fuel + 1 => do
    let s ← get
    s.queue.next?.elim (pure ()) fun first => do
      set { s with queue := first.2 }
      (s.graph.definition first.1).phi?.elim (stride (throw (.fault .outOfRange))) fun p =>
        if p.complete then pure () else completePassing maxDepth first.1 p
      drainPassing maxDepth fuel

/-- Each round takes one phi from the queue, as the loop does. -/
@[simp]
theorem result_drainPassing (maxDepth : Int) (fuel : Nat) :
    (drainPassing maxDepth fuel).result = drain maxDepth fuel := by
  induction fuel with
  | zero => rfl
  | succ fuel ih =>
    unfold drainPassing drain
    rw [result_bind]
    refine congrArg _ (funext fun s => ?_)
    cases s.queue.next? with
    | none => rfl
    | some first =>
      obtain ⟨v, queue⟩ := first
      cases hphi : (s.graph.definition v).phi? with
      | none => simp [hphi, ih]
      | some p => cases hcomplete : p.complete <;> simp [hphi, hcomplete, ih]

end PhiCompletion

namespace Passing

open Passage

/-- Dead blocks are removed one by one, unless they are kept or something fails before. -/
def findDominators : Passing Unit :=
  via
    (fun s =>
      match Lift.findDominators s with
      | .error _ _ => []
      | .ok _ _ =>
        if s.options.keepDead then []
        else (s.graph.discards s.graph.deadBlocks).map fun graph => { s with graph })
    Lift.findDominators

@[simp]
theorem result_findDominators : findDominators.result = Lift.findDominators := rfl

/-- Completes the phis of all blocks; what the completion shows is put back into the state. -/
def completePhis : Passing Unit :=
  via
    (fun s =>
      let depth := Lift.depthLimit s.code
      let start := ⟨s.graph, { front := PhiCompletion.allPhis s.graph }, #[]⟩
      ((PhiCompletion.drainPassing depth (PhiCompletion.fuelFor s.graph depth)).states start).map
        fun r => { s with graph := r.graph, events := s.events ++ r.events })
    Lift.completePhis

@[simp]
theorem result_completePhis : completePhis.result = Lift.completePhis := rfl

/-- A lift from its start to its last check. -/
def all : Passing Unit := do
  let s ← get
  if s.started then Lift.fail .alreadyLifted
  set { s with started := true }
  Lift.checkSignature s.code.signature
  let index := s.code.index
  traverse (fun offset => index[offset]?) (Lift.traverseFuel s.code)
  findDominators
  completePhis
  Lift.finish

/-- The parts of a lift are passed through in order. -/
@[simp]
theorem result_all : all.result = Lift.all := by
  simp [all, Lift.all]

end Passing

/-- A whole lift, from the state in which it is asked for to the one in which it has ended. -/
def Lifter.passage : Passing Unit := fun s =>
  let result := close LiftError.message (Passing.all.result s.opening)
  (s :: s.opening :: Passing.all.states s.opening ++ [after result], result)

/-- A whole lift, with all that it shows, is the lift. -/
theorem Lifter.result_passage (s : Lifter) : passage.result s = s.lift := by
  change close LiftError.message (Passing.all.result s.opening) = _
  rw [Passing.result_all, lift_eq]

end StackLift
