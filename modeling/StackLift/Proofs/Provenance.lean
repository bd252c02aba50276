/-
# Where the parts of a graph come from

The constants and names in the graph of a function are entries of its tables, its operators are the
known ones, and its lines are those of the instructions.

* `Graph.Sourced` : nothing in a graph comes from elsewhere;
* `Lifter.WalkedTo.sourced` : so it is when the blocks were walked;
* `Lifter.Surveyed.sourced` : and when the phis were completed.
-/
import StackLift.Proofs.Passes
import StackLift.Proofs.Stability

namespace StackLift

/-! ## Graphs -/

namespace Graph

variable {c : Code} {g g' : Graph} {b : BlockId} {line : Int}

/-- Whether values are made of what a function provides, on its lines. -/
structure Sourced (c : Code) (g : Graph) : Prop where
  exprs : ∀ v e, (g.definition v).expr = some e → c.Provides (· ∈ c.consts) e
  lines : g.LinesIn c.HasLine

namespace Sourced

/-- A graph with the same values is made of the same, if its terminators have lines. -/
theorem of_same (h : g.Sourced c) (hdefs : g'.definitions = g.definitions)
    (hlines : ∀ b, c.HasLine (g'.block b).terminatorLine) : g'.Sourced c := by
  have hdef : ∀ v, g'.definition v = g.definition v := fun v => by
    rw [definition, hdefs, definition]
  refine ⟨fun v => ?_, fun v => ?_, hlines⟩
  · rw [hdef]
    exact h.exprs v
  · rw [hdef]
    exact h.lines.value v

/-- A change to a block has to leave its terminator on a line of the function. -/
theorem modifyBlock (h : g.Sourced c) (b : BlockId) {f : Block → Block}
    (hf : ∀ x, c.HasLine x.terminatorLine → c.HasLine (f x).terminatorLine) :
    (g.modifyBlock b f).Sourced c := by
  refine h.of_same rfl fun a => ?_
  rw [block_modifyBlock]
  split
  · exact hf _ (h.lines.terminator a)
  · exact h.lines.terminator a

/-- A new value has to be made of what the function provides, on one of its lines. -/
theorem addDefinition (h : g.Sourced c) (b : BlockId) (hline : c.HasLine line) {e : Expr}
    (he : c.Provides (· ∈ c.consts) e) : (g.addDefinition b line (some e)).Sourced c := by
  refine ⟨fun v e' he' => ?_, fun v => ?_, h.lines.terminator⟩
  · rw [definition_addDefinition] at he'
    split at he'
    · cases he'
      exact he
    · exact h.exprs v e' he'
  · rw [definition_addDefinition]
    split
    · exact hline
    · exact h.lines.value v

/-- Phis are provided by every function. -/
theorem addSlots (h : g.Sourced c) (b : BlockId) (hline : c.HasLine line) (n : Nat) :
    (g.addSlots b line n).Sourced c := by
  induction n generalizing g with
  | zero => exact h
  | succ n ih =>
    refine ih (modifyBlock ?_ b fun _ hx => hx)
    exact h.addDefinition b hline trivial

/-- A look at the stack makes phis only. -/
theorem peek (h : g.Sourced c) (b : BlockId) (hline : c.HasLine line) :
    (g.peek b line).2.Sourced c := by
  unfold Graph.peek
  split
  · exact h
  · exact h.addSlots b hline _

/-- Popping makes no more than a look at the stack does. -/
theorem pop (h : g.Sourced c) (b : BlockId) (hline : c.HasLine line) :
    (g.pop b line).2.Sourced c := by
  rw [pop_eq]
  refine (h.peek b hline).modifyBlock b fun x hx => ?_
  obtain ⟨stack, used, heq⟩ := exists_dropTop_eq x
  rw [heq]
  exact hx

/-- Pushing a value that was made adds nothing to where it comes from. -/
theorem emit (h : g.Sourced c) (b : BlockId) (hline : c.HasLine line) {e : Expr}
    (he : c.Provides (· ∈ c.consts) e) : (g.emit b line e).Sourced c := by
  refine modifyBlock ?_ b fun _ hx => hx
  exact (h.addDefinition b hline he).modifyBlock b fun _ hx => hx

/-- A new block has no values and was not left. -/
theorem ensure (h : g.Sourced c) (o : Int) : (g.ensure o).2.Sourced c := by
  unfold Graph.ensure
  split
  · exact h
  · refine h.of_same rfl fun a => ?_
    rw [block_addBlock]
    split
    · exact .inl rfl
    · exact h.lines.terminator a

/-- Edges have no lines. -/
theorem connect (h : g.Sourced c) (b : BlockId) (ts : List BlockId) :
    (ts.foldl (fun g n => g.connect b n) g).Sourced c := by
  induction ts generalizing g with
  | nil => exact h
  | cons n ts ih =>
    refine ih (modifyBlock ?_ n fun _ hx => hx)
    exact h.modifyBlock b fun _ hx => hx

/-- A block may be left on any line of the function. -/
theorem terminate (h : g.Sourced c) (b : BlockId) (hline : c.HasLine line) {t : Terminator}
    (hok : g.terminate b line t = .ok g') : g'.Sourced c := by
  unfold Graph.terminate at hok
  split at hok
  · cases hok
  · cases hok
    exact (h.modifyBlock b fun _ _ => hline).connect b t.targets

end Sourced

/-- Without values there is nothing that could come from elsewhere. -/
theorem sourced_empty (c : Code) : empty.Sourced c := by
  refine ⟨fun v e he => ?_, fun _ => .inl rfl, fun _ => .inl rfl⟩
  cases he

end Graph

/-! ## Walking -/

/-- Whether a lifter has a graph that is made of what the function provides. -/
structure Lifter.Sourced (c : Code) (s : Lifter) : Prop where
  code_eq : s.code = c
  graph : s.graph.Sourced c
  line : c.HasLine s.line

/-- Of a lifter only the code, the graph and the line matter. -/
theorem Lifter.Sourced.of_eq {c : Code} {s s' : Lifter} (h : s.Sourced c) (hcode : s'.code = s.code)
    (hgraph : s'.graph = s.graph) (hline : s'.line = s.line) : s'.Sourced c :=
  ⟨hcode.trans h.code_eq, hgraph ▸ h.graph, hline ▸ h.line⟩

namespace Lift

open Lifter

variable {c : Code} {s s' : Lifter}

/-- Instructions take from nowhere but from the function. -/
theorem stable_sourced (c : Code) : Stable c (· ∈ c.consts) (Sourced c) where
  code_eq _ hs := hs.code_eq
  consts _ hs v _ hx := hs.graph.exprs v _ hx
  tell _ _ hs _ _ := hs.of_eq rfl rfl rfl
  line _ _ hs hline := ⟨hs.code_eq, hs.graph, hline⟩
  mark _ _ hs := hs.of_eq rfl rfl rfl
  peek _ hs := ⟨hs.code_eq, hs.graph.peek _ hs.line, hs.line⟩
  pop _ hs := ⟨hs.code_eq, hs.graph.pop _ hs.line, hs.line⟩
  emit _ b _ hs he := ⟨hs.code_eq, hs.graph.emit b hs.line he, hs.line⟩
  ensure _ o hs := ⟨hs.code_eq, hs.graph.ensure o, hs.line⟩
  terminate _ _ _ hs hok := ⟨hs.code_eq, hs.graph.terminate _ hs.line hok, hs.line⟩

/-- An instruction of the function makes values on its own line. -/
theorem step_sourced {i : Instruction} (h : Sourced c s) (hi : i ∈ c.instructions)
    (hok : step i s = .ok () s') : Sourced c s' := by
  obtain ⟨e, s₁, he, hbegins, hok⟩ := step_ok hok
  have hs₁ : Sourced c s₁ := by
    refine ⟨hbegins.code_eq.trans h.code_eq, ?_, ?_⟩
    · rw [hbegins.graph_eq]
      exact h.graph
    · rw [hbegins.line_eq]
      exact .inr (.inr ⟨i, hi, rfl⟩)
  exact ((keeps_perform (stable_sourced c) he).of_ok hok hs₁).1

/-- A walk through a block meets instructions of the function only. -/
theorem walkFrom_sourced (hc : c.Sound) {fuel : Nat} {p : Int} (h : Sourced c s)
    (hok : walkFrom c.at? p fuel s = .ok () s') : Sourced c s' := by
  induction fuel generalizing p s with
  | zero => cases hok
  | succ fuel ih =>
    rw [walkFrom] at hok
    cases hi : c.at? p with
    | none =>
      rw [hi] at hok
      cases hok
    | some i =>
      simp only [hi] at hok
      obtain ⟨⟨⟩, s₁, hstep, hok⟩ := bind_eq_ok.1 hok
      have hs₁ := step_sourced h ((hc.at?_eq_some_iff p i).1 hi).1 hstep
      rw [get_bind] at hok
      split at hok
      · cases hok
        exact hs₁
      · cases hfind : s₁.graph.find? i.next with
        | some b =>
          simp only [hfind] at hok
          exact ((keeps_jumpTo (stable_sourced c) b).of_ok hok hs₁).1
        | none =>
          simp only [hfind] at hok
          exact ih hs₁ hok

/-- The arguments that the entry begins with are provided by the function as well. -/
theorem walk_sourced (hc : c.Sound) {o : Int} (h : Sourced c s)
    (hok : walk c.at? o s = .ok () s') : Sourced c s' := by
  obtain ⟨b, s₁, s₂, e, hensure, -, -, henter, hrest⟩ := walk_cases c.at? o s
  have hs₁ := ((keeps_ensure (stable_sourced c) o).of_ok hensure h).1
  have hkeeps : Keeps (Sourced c) (fun _ => True) (if o = 0 then pushArguments else pure ()) := by
    split
    · exact keeps_pushArguments (stable_sourced c)
    · exact keeps_pure trivial
  have hs₂ := (hkeeps.of_ok henter (hs₁.of_eq rfl rfl rfl)).1
  obtain ⟨s₃, e', hfrom, -, -, heq⟩ | ⟨stop, s₃, -, heq⟩ := hrest
  · rw [heq] at hok
    cases hok
    exact (walkFrom_sourced hc hs₂ hfrom).of_eq rfl rfl rfl
  · rw [heq] at hok
    cases hok

/-- The walks of all blocks, one after the other. -/
theorem traverse_sourced (hc : c.Sound) {fuel : Nat} (h : Sourced c s)
    (hok : traverse c.at? fuel s = .ok () s') : Sourced c s' := by
  induction fuel generalizing s with
  | zero => cases hok
  | succ fuel ih =>
    obtain ⟨r, heq, hends⟩ | ⟨pending, heq⟩ | ⟨o, pending, processed, heq⟩ :=
      traverse_rounds c.at? s
    · rw [heq] at hok
      rw [hends s' hok]
      exact h
    · rw [heq] at hok
      refine ih ?_ hok
      exact h.of_eq rfl rfl rfl
    · rw [heq] at hok
      obtain ⟨_, s₁, hwalk, hok⟩ := bind_eq_ok.1 hok
      refine ih (walk_sourced hc ?_ hwalk) hok
      exact h.of_eq rfl rfl rfl

end Lift

namespace Lifter

variable {c : Code} {options : LiftOptions} {done : List Int} {g : Graph} {s : Lifter}

/-- A lift starts with blocks that have no values. -/
theorem sourced_ofCode (c : Code) (options : LiftOptions) :
    (ofCode c options).graph.Sourced c := by
  have hensure : ∀ (labels : List Int) (g : Graph), g.Sourced c →
      (labels.foldl (fun g o => (g.ensure o).2) g).Sourced c := by
    intro labels
    induction labels with
    | nil => exact fun g hg => hg
    | cons o labels ih => exact fun g hg => ih _ (hg.ensure o)
  exact hensure c.labels _ (Graph.sourced_empty c)

/-- When the blocks of a function were walked, its graph is made of what it provides. -/
theorem WalkedTo.sourced (h : WalkedTo c options g) (hc : c.Sound) : g.Sourced c := by
  obtain ⟨s, s', hopened, hok, rfl⟩ := h
  refine (Lift.traverse_sourced hc ⟨hopened.code_eq, ?_, ?_⟩ hok).graph
  · rw [hopened.graph_eq]
    exact sourced_ofCode c options
  · rw [hopened.line_eq]
    exact .inl rfl

/-- Completing the phis adds nothing but phis, on lines that are there. -/
theorem Surveyed.sourced (h : Surveyed c done g s) (hg : g.Sourced c) : s.graph.Sourced c := by
  have htyped := h.feeding.typed
  constructor
  · intro v e he
    have hlt : v < s.graph.definitions.size := by
      refine Nat.lt_of_not_le fun hle => ?_
      rw [Graph.definition_of_size_le hle] at he
      cases he
    rcases Graph.mem_code_iff.1 (htyped.placed v hlt) with hv | hv
    · obtain ⟨k, hk⟩ := Array.mem_iff_getElem?.1 hv
      obtain ⟨-, -, p, hp, -⟩ := htyped.phi _ k v hk
      obtain rfl := Option.some.inj (he.symm.trans (Graph.expr_of_phi?_eq_some hp))
      trivial
    · -- a value that is no phi was there before
      rw [h.body_eq] at hv
      obtain ⟨k, hk⟩ := Array.mem_iff_getElem?.1 hv
      obtain ⟨hold, -, hphi⟩ := h.traversed.divided.wellFormed.typed.body _ k v hk
      rw [h.definition_eq hold hphi] at he
      exact hg.exprs v e he
  · apply h.feeding.lines
    rw [Graph.kept_eq]
    exact ⟨hg.lines.value, hg.lines.terminator⟩

end Lifter

end StackLift
