/-
# Flaws of instructions

Control is followed from the beginning through instructions that can be lifted.  All that is kept on
the way is which of the values pushed since the block was entered are constants, as the keys of
keywords have to be constants.  An instruction that cannot be lifted, or an offset without one, is a
flaw, and the lifter tells flaws in the same way.

* `Code.Flaw` : what is wrong where control is;
* `Code.Visits` : the places to which control gets;
* `Lift.Runs` : computations that succeed, or refuse the function, on the same line;
* `Lift.runs_perform` : an effect takes place unless there is a flaw.
-/
import StackLift.Proofs.Stopping

namespace StackLift

/-! ## Places and their flaws -/

/-- Where control is in a function. -/
structure Place where
  /-- The offset at which the block was entered. -/
  block : Int
  /-- The offset of the instruction that comes next. -/
  offset : Int
  /-- What was pushed since the block was entered, the top first: a constant or another value. -/
  stack : List (Option Constant) := []

/-- The place at which a block is entered. -/
def Place.enter (o : Int) : Place := { block := o, offset := o }

/-- What is wrong with the key of a keyword, which is a constant or another value. -/
def keyError? : Option Constant → Option StepError
  | some (.str _) => none
  | some _ => some .keywordNotString
  | none => some .keywordNotConstant

namespace Code

/-- Why an instruction cannot be stepped that has an effect. -/
inductive Unfit (c : Code) (i : Instruction) (stack : List (Option Constant)) :
    Effect → StepError → Prop
  | constIndex (h : ¬ (0 ≤ i.arg ∧ i.arg < c.consts.length)) :
      Unfit c i stack .loadConst (.constIndex i.arg)
  | globalIndex (h : ¬ (0 ≤ i.arg ∧ i.arg < c.names.length)) :
      Unfit c i stack .loadGlobal (.globalIndex i.arg)
  | loadIndex (h : ¬ (0 ≤ i.arg ∧ i.arg < c.varnames.length)) :
      Unfit c i stack .loadLocal (.localIndex i.arg)
  | storeIndex (h : ¬ (0 ≤ i.arg ∧ i.arg < c.varnames.length)) :
      Unfit c i stack .storeLocal (.localIndex i.arg)
  | comparison (h : ¬ (0 ≤ i.arg ∧ i.arg ≤ 5)) : Unfit c i stack .compare (.comparison i.arg)
  /-- A key is not a string.  Each key is below its value. -/
  | keyword {k : Nat} (hk : k < Lift.keywordCount i.arg) {cause : StepError}
      (h : keyError? stack[2 * k + 1]?.join = some cause) : Unfit c i stack .call cause

/-- Why a function is refused that gets to a place. -/
inductive Flaw (c : Code) (p : Place) : LiftError → Prop
  | missing (h : c.at? p.offset = none) : Flaw c p (.fallsOff p.block p.offset)
  | unsupported {i : Instruction} (hi : c.at? p.offset = some i) (h : i.op.effect? = none) :
      Flaw c p (.unsupported i)
  | unfit {i : Instruction} {e : Effect} (hi : c.at? p.offset = some i)
      (he : i.op.effect? = some e) {cause : StepError} (h : c.Unfit i p.stack e cause) :
      Flaw c p (.step i cause)

/-- The constant that an effect pushes, if it pushes one. -/
def pushed (c : Code) (i : Instruction) : Effect → Option Constant
  | .loadConst => Lift.pick? c.consts i.arg
  | _ => none

/-- What was pushed since a block was entered, after another effect from which control goes on. -/
def after (c : Code) (i : Instruction) (stack : List (Option Constant)) :
    Effect → List (Option Constant)
  | .nothing => stack
  | e => c.pushed i e :: stack.drop (e.plain i + 2 * e.keyed i)

/-- The places to which control gets through instructions without a flaw.  A block is entered at a
label, and wherever control does not just go on. -/
inductive Visits (c : Code) : Place → Prop
  | entry : Visits c (.enter 0)
  | next {p : Place} {i : Instruction} {e : Effect} (h : Visits c p)
      (hi : c.at? p.offset = some i) (he : i.op.effect? = some e) (hsound : ∀ err, ¬ c.Flaw p err)
      (hflow : i.op.flow = .goesOn) (hlabel : c.isLabel i.next = false) :
      Visits c { block := p.block, offset := i.next, stack := c.after i p.stack e }
  | enter {p : Place} {i : Instruction} (h : Visits c p) (hi : c.at? p.offset = some i)
      (hsound : ∀ err, ¬ c.Flaw p err) (hend : i.op.flow ≠ .goesOn ∨ c.isLabel i.next = true)
      {o : Int} (ho : o ∈ i.successors) : Visits c (.enter o)

variable {c : Code} {p : Place}

theorem Flaw.ne_stack {err : LiftError} (h : c.Flaw p err) (e : StackError) : err ≠ .stack e := by
  cases h <;> rintro ⟨⟩

theorem Visits.reaches (h : c.Visits p) : c.Reaches p.offset := by
  induction h with
  | entry => exact .entry
  | next _ hi _ _ hflow _ ih =>
    refine .step ih hi ?_
    rw [Instruction.successors, hflow]
    exact List.mem_singleton_self _
  | enter _ hi _ _ ho ih => exact .step ih hi ho

end Code

/-! ## Constants on the stack of a block -/

/-- The constant that an expression is, if it is one. -/
def Expr.constant? : Expr → Option Constant
  | .const x => some x
  | _ => none

namespace Graph

variable {g : Graph} {b : BlockId}

/-- The constant that an operand is, if it is one. -/
def constant? (g : Graph) (v : Operand) : Option Constant :=
  (v.bind fun v => (g.definition v).expr).bind Expr.constant?

/-- A pop takes away the top of the stack of its block, if there is one. -/
theorem stack_pop (hb : b < g.blocks.size) (line : Int) :
    ((g.pop b line).2.block b).stack = (g.block b).stack.tail := by
  have hlt : b < (g.peek b line).2.blocks.size := (g.worksIn_peek b line).size_eq ▸ hb
  rw [pop_eq, block_modifyBlock_self hlt]
  rcases peek_cases hb line with ⟨v, rest, hstack, -, hblock⟩ | ⟨new, v, hstack, -, -, -, hblock⟩
  · rw [hblock, dropTop_of_cons hstack, hstack]
    rfl
  · have hempty : ((g.peek b line).2.block b).stack = [] := by rw [hblock, hstack]
    rw [dropTop_of_nil hempty, hstack]
    exact hempty

/-- Whether the values on the stack of a block were all defined, and which of them are
constants. -/
structure Knows (g : Graph) (b : BlockId) (known : List (Option Constant)) : Prop where
  old : ∀ u, some u ∈ (g.block b).stack → u < g.definitions.size
  constants : ∀ k : Nat, (g.block b).stack[k]?.bind g.constant? = known[k]?.join

namespace Knows

variable {known : List (Option Constant)}

theorem constant?_eq {g' : Graph} (h : g.Knows b known) (hwork : WorksIn b g g') {v : Operand}
    (hv : v ∈ (g.block b).stack) : g'.constant? v = g.constant? v := by
  cases v with
  | none => rfl
  | some u =>
    unfold constant?
    rw [Option.bind_some, Option.bind_some, hwork.definition_eq u (h.old u hv)]

/-- Popping knows the value that was on top, and what is below. -/
theorem pop (h : g.Knows b known) (htyped : g.Typed) (hb : b < g.blocks.size) (line : Int) :
    (g.pop b line).2.Knows b (known.drop 1) ∧
      (g.pop b line).2.constant? (g.pop b line).1 = known[0]?.join := by
  have hwork := g.worksIn_pop b line
  have hstack := stack_pop hb line
  refine ⟨⟨fun u hu => ?_, fun k => ?_⟩, ?_⟩
  · rw [hstack] at hu
    exact Nat.lt_of_lt_of_le (h.old u (List.mem_of_mem_tail hu)) hwork.count_le
  · rw [hstack, List.getElem?_tail, List.getElem?_drop, Nat.add_comm 1 k, ← h.constants (k + 1)]
    cases hv : (g.block b).stack[k + 1]? with
    | none => rfl
    | some v => exact h.constant?_eq hwork (List.mem_of_getElem? hv)
  · have htop : (g.pop b line).1 = (g.peek b line).1 := by rw [pop_eq]
    rw [← h.constants 0, htop]
    rcases peek_cases hb line with ⟨v, rest, hcons, hv, -⟩ | ⟨new, v, hnil, -, hv, hslot, hblock⟩
    · rw [hv, hcons]
      exact h.constant?_eq hwork (by rw [hcons]; exact List.mem_cons_self)
    · -- what comes from below the stack is a phi
      have hphi := (htyped.pop hb line).phi b (g.block b).used v (by
        rw [pop_eq, block_modifyBlock_self ((g.worksIn_peek b line).size_eq ▸ hb), phis_dropTop,
          hblock]
        exact hslot)
      obtain ⟨-, -, p, hp, -⟩ := hphi
      rw [hv, hnil]
      unfold constant?
      rw [Option.bind_some, expr_of_phi?_eq_some hp]
      rfl

/-- Emitting a value knows whether it is a constant. -/
theorem emit (h : g.Knows b known) (hb : b < g.blocks.size) (line : Int) (e : Expr) :
    (g.emit b line e).Knows b (e.constant? :: known) := by
  have hwork := g.worksIn_emit b line e
  have hblock := block_emit_self hb line e
  have hsize : (g.emit b line e).definitions.size = g.definitions.size + 1 := by
    simp [Graph.emit, push, define, addDefinition]
  have hself : (g.emit b line e).constant? (some g.definitions.size) = e.constant? := by
    unfold constant?
    rw [Option.bind_some, definition_emit, if_pos rfl]
    rfl
  refine ⟨fun u hu => ?_, fun k => ?_⟩
  · rw [hblock] at hu
    rw [hsize]
    rcases List.mem_cons.1 hu with heq | hu
    · cases heq
      exact Nat.lt_succ_self _
    · exact Nat.lt_succ_of_lt (h.old u hu)
  · rw [hblock]
    cases k with
    | zero => exact hself
    | succ k =>
      rw [List.getElem?_cons_succ, List.getElem?_cons_succ, ← h.constants k]
      cases hv : (g.block b).stack[k]? with
      | none => rfl
      | some v => exact h.constant?_eq hwork (List.mem_of_getElem? hv)

end Knows

end Graph

/-- What holds of a lifter where it is known which of the values on the stack of the current block
are constants. -/
structure Lifter.Knows (c : Code) (known : List (Option Constant)) (s : Lifter) : Prop
    extends s.Solid where
  code_eq : s.code = c
  typed : s.graph.Typed
  graph : s.graph.Knows s.current known

theorem Lifter.Knows.of_eq {c : Code} {known : List (Option Constant)} {s s' : Lifter}
    (h : s.Knows c known) (hcode : s'.code = s.code) (hgraph : s'.graph = s.graph)
    (hcurrent : s'.current = s.current) : s'.Knows c known := by
  refine ⟨⟨?_, ?_⟩, hcode.trans h.code_eq, ?_, ?_⟩
  · rw [hcurrent, hgraph]
    exact h.lt_size
  · rw [hcurrent, hgraph]
    exact h.stack
  · rw [hgraph]
    exact h.typed
  · rw [hcurrent, hgraph]
    exact h.graph

/-! ## Computations that succeed or refuse the function -/

namespace Lift

open Lifter

variable {c : Code} {known : List (Option Constant)} {s s' : Lifter} {i : Instruction}

/-- Whether a computation succeeds with `P` or refuses the function with `Q`, and stays on its
line. -/
def Runs {α : Type} (x : Lift α) (s : Lifter) (P : α → Lifter → Prop) (Q : LiftError → Prop) :
    Prop :=
  (∃ a s', x s = .ok a s' ∧ s'.line = s.line ∧ P a s') ∨
    ∃ e s', x s = .error (.error e) s' ∧ s'.line = s.line ∧ Q e

theorem Runs.bind {α β : Type} {x : Lift α} {k : α → Lift β} {P : α → Lifter → Prop}
    {P' : β → Lifter → Prop} {Q Q' : LiftError → Prop} (hx : Runs x s P Q)
    (hk : ∀ a s', P a s' → Runs (k a) s' P' Q') (hQ : ∀ e, Q e → Q' e) :
    Runs (x >>= k) s P' Q' := by
  rcases hx with ⟨a, s₁, hok, hline, hP⟩ | ⟨e, s₁, hstop, hline, he⟩
  · unfold Runs
    rw [bind_of_ok hok, ← hline]
    exact hk a s₁ hP
  · exact .inr ⟨e, s₁, bind_of_error hstop, hline, hQ e he⟩

theorem Runs.mono {α : Type} {x : Lift α} {P P' : α → Lifter → Prop} {Q Q' : LiftError → Prop}
    (h : Runs x s P Q) (hP : ∀ a s', P a s' → P' a s') (hQ : ∀ e, Q e → Q' e) :
    Runs x s P' Q' := by
  rcases h with ⟨a, s', hok, hline, ha⟩ | ⟨e, s', hstop, hline, he⟩
  · exact .inl ⟨a, s', hok, hline, hP a s' ha⟩
  · exact .inr ⟨e, s', hstop, hline, hQ e he⟩

theorem Runs.of_ok {α : Type} {x : Lift α} {P : α → Lifter → Prop} {Q : LiftError → Prop} {a : α}
    (h : Runs x s P Q) (hok : x s = .ok a s') : P a s' := by
  rcases h with ⟨a', s₁, hok', -, ha⟩ | ⟨e, s₁, hstop, -, -⟩
  · cases hok.symm.trans hok'
    exact ha
  · cases hok.symm.trans hstop

/-- The state can be looked at. -/
theorem Runs.get {α : Type} {k : Lifter → Lift α} {P : α → Lifter → Prop} {Q : LiftError → Prop}
    (h : Runs (k s) s P Q) : Runs (MonadState.get >>= k) s P Q := h

theorem runs_fail {α : Type} {P : α → Lifter → Prop} {Q : LiftError → Prop} {e : LiftError}
    (h : Q e) : Runs (fail e) s P Q := .inr ⟨e, s, rfl, rfl, h⟩

/-- Telling about an operand stays on the line. -/
theorem line_of_tellUnderflow {v : Operand} (h : tellUnderflow v s = .ok () s') :
    s'.line = s.line := by
  cases v with
  | none => cases h
  | some u =>
    rw [tellUnderflow, get_bind] at h
    dsimp only at h
    cases hphi : (s.graph.definition u).phi? with
    | some p =>
      rw [hphi] at h
      cases h
      rfl
    | none =>
      rw [hphi] at h
      cases h
      rfl

theorem line_of_pop {v : Operand} (h : pop s = .ok v s') : s'.line = s.line := by
  have hparts : (do
      let v ← onGraph (·.pop s.current s.line)
      tellUnderflow v
      return v : Lift Operand) s = .ok v s' := h
  obtain ⟨u, s₁, hgraph, hparts⟩ := bind_eq_ok.1 hparts
  obtain ⟨⟨⟩, s₂, htell, hparts⟩ := bind_eq_ok.1 hparts
  cases hparts
  have hline : s₁.line = s.line := by
    cases hgraph
    rfl
  exact (line_of_tellUnderflow htell).trans hline

/-- Popping knows the value that was on top. -/
theorem runs_pop (h : s.Knows c known) :
    Runs pop s (fun v s' => s'.Knows c (known.drop 1) ∧ s'.graph.constant? v = known[0]?.join)
      fun _ => False := by
  obtain ⟨v, s', hok, hsolid⟩ := exists_top h.toSolid true
  obtain ⟨haside, hgraph, hv⟩ := pop_ok hok
  obtain ⟨hknows, htop⟩ := h.graph.pop h.typed h.lt_size s.line
  refine .inl ⟨v, s', hok, line_of_pop hok, ⟨hsolid, haside.code_eq.trans h.code_eq, ?_, ?_⟩, ?_⟩
  · rw [hgraph]
    exact h.typed.pop h.lt_size s.line
  · rw [hgraph, haside.current_eq]
    exact hknows
  · rw [hgraph, hv]
    exact htop

/-- Emitting a value knows whether it is a constant. -/
theorem runs_pushNew {Q : LiftError → Prop} (h : s.Knows c known) {e : Expr}
    (he : ∀ p, e ≠ .phi p) :
    Runs (pushNew e) s (fun _ s' => s'.Knows c (e.constant? :: known)) Q := by
  obtain ⟨stop, s', hstop, -⟩ | ⟨⟨⟩, s', hok, hsolid⟩ := proceeds_pushNew h.toSolid e
  · cases hstop
  · obtain ⟨haside, hgraph⟩ := pushNew_ok hok
    refine .inl ⟨(), s', hok, ?_, hsolid, haside.code_eq.trans h.code_eq, ?_, ?_⟩
    · cases hok
      rfl
    · rw [hgraph]
      exact h.typed.emit h.lt_size s.line he
    · rw [hgraph, haside.current_eq]
      exact h.graph.emit h.lt_size s.line e

theorem runs_popArgs (h : s.Knows c known) (n : Nat) (after : List Operand) :
    Runs (popArgs n after) s (fun _ s' => s'.Knows c (known.drop n)) fun _ => False := by
  induction n generalizing s known after with
  | zero => exact .inl ⟨after, s, rfl, rfl, h⟩
  | succ n ih =>
    refine (runs_pop h).bind (fun v s₁ hpop => ?_) fun e he => he
    have hrest := ih hpop.1 (v :: after)
    rwa [List.drop_drop, Nat.add_comm 1 n] at hrest

/-- A key has to be a string, which is its name. -/
theorem keywordName_cases (i : Instruction) (v : Operand) (s : Lifter) :
    (∃ name, s.graph.constant? v = some (.str name) ∧ keywordName i v s = .ok name s) ∨
      ∃ cause, keyError? (s.graph.constant? v) = some cause ∧
        keywordName i v s = .error (.error (.step i cause)) s := by
  rw [keywordName, get_bind]
  unfold Graph.constant?
  cases v.bind fun v => (s.graph.definition v).expr with
  | none => exact .inr ⟨_, rfl, rfl⟩
  | some e =>
    cases e with
    | const x =>
      cases x with
      | str name => exact .inl ⟨name, rfl, rfl⟩
      | _ => exact .inr ⟨_, rfl, rfl⟩
    | _ => exact .inr ⟨_, rfl, rfl⟩

theorem runs_keywordName (i : Instruction) (v : Operand) (s : Lifter) :
    Runs (keywordName i v) s (fun _ s' => s' = s ∧ keyError? (s.graph.constant? v) = none)
      fun e => ∃ cause, keyError? (s.graph.constant? v) = some cause ∧ e = .step i cause := by
  rcases keywordName_cases i v s with ⟨name, hname, hok⟩ | ⟨cause, hcause, hstop⟩
  · exact .inl ⟨name, s, hok, rfl, rfl, by rw [hname]; rfl⟩
  · exact .inr ⟨_, s, hstop, rfl, cause, hcause, rfl⟩

/-- Keywords are popped until there is a key that is no string. -/
theorem runs_popKeywords (h : s.Knows c known) (n : Nat) (after : List Keyword) :
    Runs (popKeywords i n after) s
      (fun _ s' => s'.Knows c (known.drop (2 * n)) ∧
        ∀ k < n, keyError? known[2 * k + 1]?.join = none)
      fun e => ∃ k < n, ∃ cause, keyError? known[2 * k + 1]?.join = some cause ∧
        e = .step i cause := by
  induction n generalizing s known after with
  | zero => exact .inl ⟨after, s, rfl, rfl, h, fun k hk => absurd hk (Nat.not_lt_zero k)⟩
  | succ n ih =>
    refine (runs_pop h).bind (fun value s₁ hvalue => ?_) fun e he => he.elim
    refine (runs_pop hvalue.1).bind (fun key s₂ hkey => ?_) fun e he => he.elim
    obtain ⟨hknows, htop⟩ := hkey
    rw [List.drop_drop] at hknows
    rw [List.getElem?_drop] at htop
    refine (runs_keywordName i key s₂).bind (fun name s₃ hname => ?_) fun e he => ?_
    · obtain ⟨rfl, hstring⟩ := hname
      rw [htop] at hstring
      -- the keywords left are those of the stack without this key and its value
      have hdrop : ∀ m, (known.drop 2).drop m = known.drop (m + 2) := fun m => by
        rw [List.drop_drop, Nat.add_comm]
      have hshift : ∀ k : Nat, (known.drop 2)[2 * k + 1]? = known[2 * (k + 1) + 1]? := fun k => by
        rw [List.getElem?_drop]
        congr 1
        omega
      refine (ih hknows _).mono ?_ ?_
      · rintro kws s' ⟨hrest, hstrings⟩
        rw [hdrop] at hrest
        refine ⟨hrest, fun k hk => ?_⟩
        cases k with
        | zero => exact hstring
        | succ k => exact hshift k ▸ hstrings k (Nat.lt_of_succ_lt_succ hk)
      · rintro e ⟨k, hk, cause, hcause, rfl⟩
        exact ⟨k + 1, Nat.succ_lt_succ hk, cause, hshift k ▸ hcause, rfl⟩
    · obtain ⟨cause, hcause, rfl⟩ := he
      rw [htop] at hcause
      exact ⟨0, Nat.succ_pos n, cause, hcause, rfl⟩

/-! ## Instructions -/

theorem pick?_cases {α : Type} (table : List α) (k : Int) :
    (∃ x, pick? table k = some x ∧ 0 ≤ k ∧ k < table.length) ∨
      pick? table k = none ∧ ¬ (0 ≤ k ∧ k < table.length) := by
  unfold pick?
  by_cases hneg : k < 0
  · exact .inr ⟨if_pos hneg, by omega⟩
  · rw [if_neg hneg]
    by_cases hlt : k.toNat < table.length
    · exact .inl ⟨_, List.getElem?_eq_getElem hlt, by omega, by omega⟩
    · exact .inr ⟨List.getElem?_eq_none (Nat.le_of_not_lt hlt), by omega⟩

theorem after_of_ne {e : Effect} (hne : e ≠ .nothing) :
    c.after i known e = c.pushed i e :: known.drop (e.plain i + 2 * e.keyed i) := by
  cases e with
  | nothing => exact absurd rfl hne
  | _ => rfl

/-- Once its operands were popped and nothing is wrong with it, an effect emits its value. -/
theorem runs_result {e : Effect} {ex : Expr} {Q : LiftError → Prop} (hne : e ≠ .nothing)
    (h : s.Knows c (known.drop (e.plain i + 2 * e.keyed i))) (hphi : ∀ p, ex ≠ .phi p)
    (hpushed : ex.constant? = c.pushed i e) (hfit : ∀ cause, ¬ c.Unfit i known e cause) :
    Runs (pushNew ex) s
      (fun _ s' => s'.Knows c (c.after i known e) ∧ ∀ cause, ¬ c.Unfit i known e cause) Q := by
  refine (runs_pushNew h hphi).mono (fun _ s' hs' => ⟨?_, hfit⟩) fun err herr => herr
  rw [after_of_ne hne, ← hpushed]
  exact hs'

theorem runs_binary {e : Effect} {o : Operator} {Q : LiftError → Prop} (hplain : e.plain i = 2)
    (hkeyed : e.keyed i = 0) (hne : e ≠ .nothing) (hpushed : c.pushed i e = none)
    (h : s.Knows c known) (hfit : ∀ cause, ¬ c.Unfit i known e cause) :
    Runs (binary o) s
      (fun _ s' => s'.Knows c (c.after i known e) ∧ ∀ cause, ¬ c.Unfit i known e cause) Q := by
  refine (runs_pop h).bind (fun right s₁ hright => ?_) fun err herr => herr.elim
  refine (runs_pop hright.1).bind (fun left s₂ hleft => ?_) fun err herr => herr.elim
  refine runs_result hne ?_ (by rintro p ⟨⟩) hpushed.symm hfit
  rw [hplain, hkeyed]
  simpa using hleft.1

/-- The name of a local variable is found, unless there is none of that index. -/
theorem runs_localName (i : Instruction) (s : Lifter) :
    Runs (localName i) s
      (fun _ s' => s' = s ∧ 0 ≤ i.arg ∧ i.arg < s.code.varnames.length)
      fun err => ¬ (0 ≤ i.arg ∧ i.arg < s.code.varnames.length) ∧
        err = .step i (.localIndex i.arg) := by
  refine .get ?_
  rcases pick?_cases s.code.varnames i.arg with ⟨name, hname, hin⟩ | ⟨hname, hout⟩
  · rw [hname]
    exact .inl ⟨name, s, rfl, rfl, rfl, hin⟩
  · rw [hname]
    exact runs_fail ⟨hout, rfl⟩

/-- An effect from which control goes on takes place, unless there is a reason why it cannot. -/
theorem runs_perform {e : Effect} (hflow : e.flow = .goesOn) (h : s.Knows c known) :
    Runs (perform i e) s
      (fun _ s' => s'.Knows c (c.after i known e) ∧ ∀ cause, ¬ c.Unfit i known e cause)
      fun err => ∃ cause, c.Unfit i known e cause ∧ err = .step i cause := by
  obtain rfl := h.code_eq
  cases e with
  | nothing => exact .inl ⟨(), s, rfl, rfl, h, by rintro cause ⟨⟩⟩
  | loadConst =>
    refine .get ?_
    rcases pick?_cases s.code.consts i.arg with ⟨x, hx, hin⟩ | ⟨hx, hout⟩
    · rw [hx]
      refine runs_result (by rintro ⟨⟩) h (by rintro p ⟨⟩) hx.symm ?_
      intro cause hunfit
      cases hunfit with
      | constIndex hout => exact hout hin
    · rw [hx]
      exact runs_fail ⟨_, .constIndex hout, rfl⟩
  | loadGlobal =>
    refine .get ?_
    rcases pick?_cases s.code.names i.arg with ⟨name, hname, hin⟩ | ⟨hname, hout⟩
    · rw [hname]
      refine runs_result (by rintro ⟨⟩) h (by rintro p ⟨⟩) rfl ?_
      intro cause hunfit
      cases hunfit with
      | globalIndex hout => exact hout hin
    · rw [hname]
      exact runs_fail ⟨_, .globalIndex hout, rfl⟩
  | loadLocal =>
    refine (runs_localName i s).bind ?_ ?_
    · rintro name s₁ ⟨rfl, hin⟩
      refine runs_result (by rintro ⟨⟩) h (by rintro p ⟨⟩) rfl ?_
      intro cause hunfit
      cases hunfit with
      | loadIndex hout => exact hout hin
    · rintro err ⟨hout, rfl⟩
      exact ⟨_, .loadIndex hout, rfl⟩
  | storeLocal =>
    refine (runs_localName i s).bind ?_ ?_
    · rintro name s₁ ⟨rfl, hin⟩
      refine (runs_pop h).bind (fun v s₂ hpop => ?_) fun err herr => herr.elim
      refine runs_result (by rintro ⟨⟩) hpop.1 (by rintro p ⟨⟩) rfl ?_
      intro cause hunfit
      cases hunfit with
      | storeIndex hout => exact hout hin
    · rintro err ⟨hout, rfl⟩
      exact ⟨_, .storeIndex hout, rfl⟩
  | unary o =>
    refine (runs_pop h).bind (fun v s₁ hpop => ?_) fun err herr => herr.elim
    exact runs_result (by rintro ⟨⟩) hpop.1 (by rintro p ⟨⟩) rfl (by rintro cause ⟨⟩)
  | binary o => exact runs_binary rfl rfl (by rintro ⟨⟩) rfl h (by rintro cause ⟨⟩)
  | compare =>
    unfold perform compare
    rcases pick?_cases Operator.comparisons i.arg with ⟨o, ho, hin⟩ | ⟨ho, hout⟩
    · rw [ho]
      refine runs_binary rfl rfl (by rintro ⟨⟩) rfl h ?_
      intro cause hunfit
      have hlength : Operator.comparisons.length = 6 := rfl
      cases hunfit with
      | comparison hout => omega
    · rw [ho]
      have hlength : Operator.comparisons.length = 6 := rfl
      exact runs_fail ⟨_, .comparison (by omega), rfl⟩
  | call =>
    refine (runs_popKeywords h _ _).bind ?_ ?_
    · rintro kws s₁ ⟨h₁, hstrings⟩
      refine (runs_popArgs h₁ _ _).bind (fun args s₂ h₂ => ?_) fun err herr => herr.elim
      refine (runs_pop h₂).bind (fun callee s₃ hpop => ?_) fun err herr => herr.elim
      refine runs_result (by rintro ⟨⟩) ?_ (by rintro p ⟨⟩) rfl ?_
      · -- keywords, positional arguments and the callee were dropped one after the other
        have hknows := hpop.1
        rw [List.drop_drop, List.drop_drop] at hknows
        rw [Effect.plain, Effect.keyed]
        convert hknows using 2
        omega
      · intro cause hunfit
        cases hunfit with
        | keyword hk hcause =>
          rw [hstrings _ hk] at hcause
          cases hcause
    · rintro err ⟨k, hk, cause, hcause, rfl⟩
      exact ⟨cause, .keyword hk hcause, rfl⟩
  | forLoop => cases hflow
  | branch pops jumpsOn => cases hflow
  | jump => cases hflow
  | ret => cases hflow

/-- Nothing is wrong with an instruction that leaves the block. -/
theorem not_unfit_of_flow {e : Effect} (hflow : e.flow ≠ .goesOn) (cause : StepError) :
    ¬ c.Unfit i known e cause := by
  intro hunfit
  cases hunfit <;> exact hflow rfl

/-- An instruction has no flaw if nothing is wrong with its effect. -/
theorem not_flaw {p : Place} {e : Effect} (hi : c.at? p.offset = some i)
    (he : i.op.effect? = some e) (hfit : ∀ cause, ¬ c.Unfit i p.stack e cause) (err : LiftError) :
    ¬ c.Flaw p err := by
  intro hflaw
  cases hflaw with
  | missing hno =>
    rw [hi] at hno
    cases hno
  | unsupported hj hno =>
    rw [hi] at hj
    cases hj
    rw [he] at hno
    cases hno
  | unfit hj he' hunfit =>
    rw [hi] at hj
    cases hj
    rw [he] at he'
    cases he'
    exact hfit _ hunfit

end Lift

end StackLift
