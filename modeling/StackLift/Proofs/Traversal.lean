/-
# Walking all blocks

The machine with one stack goes along while a block is walked, up to an instruction that ends the
block.  Each walk finishes one block, until there is none left that control reaches.

* `Lifter.Tracking` : what holds while a block is walked;
* `Lifter.Rooted` : what holds of the order of the walks;
* `Lift.walk_progress` : a walk finishes one block;
* `Lift.traverse_progress` : in the end nothing is left to be walked.
-/
import StackLift.Proofs.Progress

namespace StackLift

/-! ## Walking a block -/

/-- What holds while the block at an offset is walked and a machine tracks it. -/
structure Lifter.Tracking (c : Code) (done : List Int) (b : BlockId) (o : Int)
    (machine : Flat → Option Flat) (R : (Operand → Token → Prop) → Flat → Prop) (s : Lifter) :
    Prop where
  progress : s.Progress c done (some b)
  current_eq : s.current = b
  offset_eq : s.graph.offset b = o
  tracks : s.graph.Tracks b (c.isLoopBody done o) machine R

/-- What holds while the block at an offset is walked and a part of its run was stepped. -/
abbrev Lifter.Walking (c : Code) (done : List Int) (b : BlockId) (o : Int)
    (run : List Instruction) : Lifter → Prop :=
  Tracking c done b o (Flat.runBlock (c.argsAt o) (c.isLoopBody done o) run) fun _ f => f.left = []

/-- What holds while the iterator of a loop is on top. -/
abbrev Lifter.Seeing (c : Code) (done : List Int) (b : BlockId) (o : Int)
    (run : List Instruction) (v : Operand) : Lifter → Prop :=
  Tracking c done b o
    (fun f => (f.runBlock (c.argsAt o) (c.isLoopBody done o) run).bind fun f =>
      f.stack.head?.map fun _ => f)
    fun Denotes f => ∃ top rest, f.stack = top :: rest ∧ Denotes v top

/-- What holds when the run of the block at an offset was stepped and the block is to be left. -/
abbrev Lifter.Ending (c : Code) (done : List Int) (b : BlockId) (o : Int) (t : Terminator)
    (iterator : Option Operand) : Lifter → Prop :=
  Tracking c done b o (Flat.runBlock (c.argsAt o) (c.isLoopBody done o) (c.blockRun o))
    fun Denotes f => (t = .retVoid ∨ List.Forall₂ Denotes t.operands f.left) ∧
      ∀ v, iterator = some v → ∃ top rest, f.stack = top :: rest ∧ Denotes v top

namespace Lifter.Tracking

variable {c : Code} {done : List Int} {b : BlockId} {o : Int} {run : List Instruction}
  {s s' : Lifter} {i : Instruction} {machine machine' : Flat → Option Flat}
  {R R' : (Operand → Token → Prop) → Flat → Prop}

theorem wellFormed (h : Tracking c done b o machine R s) : s.graph.WellFormed :=
  h.progress.divided.wellFormed

theorem lt_size (h : Tracking c done b o machine R s) : b < s.graph.blocks.size :=
  (h.wellFormed.mem_live_iff b).1 (h.progress.divided.now_live b rfl)

/-- The block that is walked is not left yet. -/
theorem isTerminated_eq (h : Tracking c done b o machine R s) :
    (s.graph.block b).isTerminated = false := by
  rw [Block.isTerminated, (h.progress.divided.now_open b rfl).1]
  rfl

/-- Work in the block goes on with what the machine tracks then. -/
theorem advances (h : Tracking c done b o machine R s) (haside : s.Aside s')
    (hwork : Graph.Advances b s.graph s'.graph)
    (htracks : s'.graph.Tracks b (c.isLoopBody done o) machine' R') :
    Tracking c done b o machine' R' s' :=
  ⟨h.progress.advances haside hwork, haside.current_eq.trans h.current_eq,
    (hwork.offset_eq b).trans h.offset_eq, htracks⟩

/-- Asking for a block does not change the one that is walked. -/
theorem ensure {p : Int} {a : BlockId} (h : Tracking c done b o machine R s) (hc : c.Sound)
    (hp : c.Starts p) (hok : Lift.ensure p s = .ok a s') :
    Tracking c done b o machine R s' ∧ s.Aside s' ∧ Graph.Ensured p s.graph s'.graph a := by
  obtain ⟨hprogress, haside, hensured⟩ := h.progress.ensure hc hp hok
  have hblock := hensured.old b (h.progress.divided.now_live b rfl)
  refine ⟨⟨hprogress, haside.current_eq.trans h.current_eq, ?_, ?_⟩, haside, hensured⟩
  · rw [Graph.offset, hblock]
    exact h.offset_eq
  · exact h.tracks.of_extends h.wellFormed.typed hensured.toExtends (by rw [hblock])
      (by rw [hblock]) (by rw [hblock]) (by rw [hblock])

/-- An instruction that is about to be performed is performed in the block. -/
theorem begins (h : Tracking c done b o machine R s) (hbegins : Lift.Begins i s s') :
    Tracking c done b o machine R s' ∧ s'.steps = s.steps ++ [(blockName o, i)] := by
  refine ⟨⟨h.progress.of_eq hbegins.code_eq hbegins.graph_eq hbegins.pending_eq
    hbegins.processed_eq, hbegins.current_eq.trans h.current_eq, ?_, ?_⟩, ?_⟩
  · rw [hbegins.graph_eq]
    exact h.offset_eq
  · rw [hbegins.graph_eq]
    exact h.tracks
  · rw [hbegins.steps_eq, Graph.nameOf, h.current_eq, h.offset_eq]

/-- An effect from which control goes on leaves the walk in its block. -/
theorem perform (h : Walking c done b o run s) {e : Effect} (he : i.op.effect? = some e)
    (hflow : e.flow = .goesOn) (hok : Lift.perform i e s = .ok () s') :
    Walking c done b o (run ++ [i]) s' ∧ s.Aside s' := by
  by_cases hne : e = .nothing
  · subst hne
    cases hok
    exact ⟨⟨h.progress, h.current_eq, h.offset_eq, Graph.Follows.nothing h.tracks he⟩, .refl s⟩
  · obtain ⟨haside, hemits⟩ := Lift.perform_ok hflow hne hok
    rw [h.current_eq] at hemits
    have hfollows := Graph.Follows.emits h.tracks h.wellFormed.typed h.lt_size he hflow hne hemits
    exact ⟨h.advances haside hemits.advances hfollows, haside⟩

/-! ## Ends of a block -/

/-- A block that is to be left and does not end with the header of a loop is finished then. -/
theorem finish {t : Terminator} (h : Ending c done b o t none s) (hc : c.Sound)
    (hlast : (c.blockRun o).getLast? = some i) (hfor : i.op.effect? ≠ some .forLoop)
    (htargets : ∀ a ∈ t.targets, a ∈ s.graph.live)
    (hsuccessors : ∀ p, (∃ a ∈ t.targets, s.graph.offset a = p) ↔ p ∈ i.successors)
    (hok : Lift.Leaves t s s') : Finished c done b o s s' := by
  obtain rfl := h.offset_eq
  exact h.progress.finish hc h.current_eq hlast hfor htargets hsuccessors h.tracks hok

/-- A block is to be left once the operand with which it is left was got from its stack. -/
theorem top (pops : Bool) {v : Operand} {t : Terminator} (h : Walking c done b o run s)
    (hrun : c.blockRun o = run ++ [i]) (ht : t = .retVoid ∨ t.operands = [v])
    (hstep : ∀ f : Flat, f.step i = f.stack.head?.map fun v =>
      { f with stack := if pops then f.stack.tail else f.stack, left := [v] })
    (hok : (if pops then Lift.pop else Lift.peek) s = .ok v s') :
    Ending c done b o t none s' ∧ s.Aside s' := by
  obtain ⟨haside, hgraph, hv⟩ := Lift.top_ok hok
  rw [h.current_eq] at hgraph hv
  have hfinishes := Graph.Follows.leave h.tracks h.wellFormed.typed h.lt_size s.line (hv ▸ ht) hstep
  rw [← hrun, ← hgraph] at hfinishes
  exact ⟨h.advances haside (hgraph ▸ s.graph.advances_top pops b s.line) hfinishes, haside⟩

/-- A block that ends with a return is finished. -/
theorem ret (h : Walking c done b o run s) (hc : c.Sound) (hrun : c.blockRun o = run ++ [i])
    (he : i.op.effect? = some .ret) (hok : Lift.ret s = .ok () s') :
    Finished c done b o s s' := by
  obtain ⟨v, s₁, t, hpop, ht, hleaves⟩ := Lift.ret_ok hok
  obtain ⟨hending, haside⟩ := h.top true hrun (ht.imp_right fun ht => by rw [ht]; rfl)
    (Flat.step_ret he) hpop
  have hempty : t.targets = [] := by rcases ht with rfl | rfl <;> rfl
  have hlast : (c.blockRun o).getLast? = some i := by rw [hrun]; simp
  refine (hending.finish hc hlast (by rw [he]; simp) (by simp [hempty]) ?_ hleaves).of_aside haside
  intro p
  rw [hempty, Instruction.successors, Opcode.flow_eq_of_effect? he]
  simp [Effect.flow]

/-- A block that ends with a jump is finished. -/
theorem jump (h : Walking c done b o run s) (hc : c.Sound) (hrun : c.blockRun o = run ++ [i])
    (he : i.op.effect? = some .jump) (hok : Lift.jump i s = .ok () s') :
    Finished c done b o s s' := by
  obtain ⟨a, s₁, hensure, hleaves⟩ := Lift.jump_ok hok
  have hlast : (c.blockRun o).getLast? = some i := by rw [hrun]; simp
  have hflow : i.op.flow = .jumps := Opcode.flow_eq_of_effect? he
  have hmem := Code.mem_of_mem_runFrom (List.mem_of_getLast? hlast)
  have hfinishes := Graph.Follows.jump h.tracks he a
  rw [← hrun] at hfinishes
  have hending : Ending c done b o (.jump a) none s :=
    ⟨h.progress, h.current_eq, h.offset_eq, hfinishes⟩
  obtain ⟨hending, haside, hensured⟩ :=
    hending.ensure hc (.inr (.inl (hc.target_mem_labels hmem (.inl hflow)))) hensure
  refine (hending.finish hc hlast (by rw [he]; simp)
    (by simpa [Terminator.targets] using hensured.mem_live) ?_ hleaves).of_aside haside
  intro p
  rw [Instruction.successors, hflow]
  simp [Terminator.targets, hensured.offset_eq, eq_comm]

/-- A run begins where control goes after a fork at the end of the block. -/
theorem starts_of_forks (h : Tracking c done b o machine R s) (hc : c.Sound)
    (hlast : (c.blockRun o).getLast? = some i) (hflow : i.op.flow = .forks) :
    c.Starts i.target ∧ c.Starts i.next := by
  have hmem := List.mem_of_getLast? hlast
  have hreach := hc.reaches_of_mem_runFrom (h.offset_eq ▸ h.progress.reaches_now) hmem
  have hsub := Code.mem_of_mem_runFrom hmem
  have hsucc : i.successors = [i.target, i.next] := by
    rw [Instruction.successors, hflow]
  exact ⟨hc.starts_of_mem_successors hsub hreach (by simp [hflow]) (by simp [hsucc]),
    hc.starts_of_mem_successors hsub hreach (by simp [hflow]) (by simp [hsucc])⟩

/-- A block that ends with a conditional jump is finished. -/
theorem branch {pops jumpsOn : Bool} (h : Walking c done b o run s) (hc : c.Sound)
    (hrun : c.blockRun o = run ++ [i]) (he : i.op.effect? = some (.branch pops jumpsOn))
    (hok : Lift.branch pops jumpsOn i s = .ok () s') :
    Finished c done b o s s' := by
  obtain ⟨cond, s₁, p, p', a, s₂, a', s₃, hcond, hp, ha, ha', hleaves⟩ := Lift.branch_ok hok
  have hlast : (c.blockRun o).getLast? = some i := by rw [hrun]; simp
  have hflow : i.op.flow = .forks := Opcode.flow_eq_of_effect? he
  obtain ⟨hending₁, haside₁⟩ := h.top (t := .branch cond a a') pops hrun (.inr rfl)
    (Flat.step_branch he) hcond
  obtain ⟨htarget, hnext⟩ := h.starts_of_forks hc hlast hflow
  have hstarts : c.Starts p ∧ c.Starts p' := by
    rcases hp with ⟨rfl, rfl⟩ | ⟨rfl, rfl⟩
    · exact ⟨htarget, hnext⟩
    · exact ⟨hnext, htarget⟩
  obtain ⟨hending₂, haside₂, hensured⟩ := hending₁.ensure hc hstarts.1 ha
  obtain ⟨hending₃, haside₃, hensured'⟩ := hending₂.ensure hc hstarts.2 ha'
  have halive := hensured'.toExtends.live_subset a hensured.mem_live
  have hoffset : s₃.graph.offset a = p := by
    rw [Graph.offset, hensured'.old a hensured.mem_live]
    exact hensured.offset_eq
  refine (hending₃.finish hc hlast (by rw [he]; simp)
    (by simp [Terminator.targets, halive, hensured'.mem_live]) ?_ hleaves).of_aside
    ((haside₁.trans haside₂).trans haside₃)
  intro q
  rw [Instruction.successors, hflow]
  rcases hp with ⟨rfl, rfl⟩ | ⟨rfl, rfl⟩
  · simp [Terminator.targets, hoffset, hensured'.offset_eq, eq_comm]
  · simp [Terminator.targets, hoffset, hensured'.offset_eq, eq_comm, or_comm]

/-- The iterator of a loop is on top once it was looked at. -/
theorem peek {v : Operand} (h : Walking c done b o run s) (hok : Lift.peek s = .ok v s') :
    Seeing c done b o run v s' ∧ s.Aside s' := by
  obtain ⟨haside, hgraph, hv⟩ := Lift.peek_ok hok
  rw [h.current_eq] at hgraph hv
  have hsees := Graph.Follows.sees h.tracks h.wellFormed.typed h.lt_size s.line
  rw [← hgraph, ← hv] at hsees
  exact ⟨h.advances haside (hgraph ▸ s.graph.advances_peek b s.line) hsees, haside⟩

/-- The header of a loop is to be left once the check of the iterator was emitted and popped
again. -/
theorem check {it cond : Operand} {s₁ : Lifter} (h : Seeing c done b o run it s)
    (hrun : c.blockRun o = run ++ [i]) (he : i.op.effect? = some .forLoop)
    (hnew : Lift.pushNew (.call (some (.operator .iterValid)) [it] []) s = .ok () s₁)
    (hpop : Lift.pop s₁ = .ok cond s') (a a' : BlockId) :
    Ending c done b o (.branch cond a a') (some it) s' ∧ s.Aside s' ∧
      Graph.WorksIn b s.graph s'.graph := by
  obtain ⟨haside₁, hgraph₁⟩ := Lift.pushNew_ok hnew
  obtain ⟨haside₂, hgraph₂, hcond⟩ := Lift.pop_ok hpop
  rw [haside₁.current_eq, h.current_eq, hgraph₁, h.current_eq] at hgraph₂ hcond
  have hphi : ∀ p, Expr.call (some (.operator .iterValid)) [it] [] ≠ .phi p := by rintro p ⟨⟩
  have hwork : Graph.Advances b s.graph s'.graph := by
    rw [hgraph₂]
    exact (s.graph.advances_emit b s.line hphi).trans (Graph.advances_pop _ b s₁.line)
  have hfinishes := Graph.Sees.loop (t := .branch cond a a') h.tracks h.wellFormed.typed h.lt_size
    he s.line s₁.line hphi rfl (by rw [hcond]; rfl)
  rw [← hrun, ← hgraph₂] at hfinishes
  exact ⟨h.advances (haside₁.trans haside₂) hwork hfinishes, haside₁.trans haside₂,
    hwork.toWorksIn⟩

/-- A block that ends with the header of a loop is finished. -/
theorem forLoop (h : Walking c done b o run s) (hc : c.Sound) (hrun : c.blockRun o = run ++ [i])
    (he : i.op.effect? = some .forLoop) (hok : Lift.forLoop i s = .ok () s') :
    Finished c done b o s s' := by
  obtain ⟨it, s₁, exit, s₂, body, s₃, s₄, cond, s₅, s₆, hpeek, hexit, hbody, hcontains, hnew, hpop,
    hleaves, hpush⟩ := Lift.forLoop_ok hok
  have hlast : (c.blockRun o).getLast? = some i := by rw [hrun]; simp
  obtain ⟨htarget, hnext⟩ := h.starts_of_forks hc hlast (Opcode.flow_eq_of_effect? he)
  -- the iterator stays on top while the blocks are asked for
  obtain ⟨hseeing₁, haside₁⟩ := h.peek hpeek
  obtain ⟨hseeing₂, haside₂, hensured₂⟩ := hseeing₁.ensure hc htarget hexit
  obtain ⟨hseeing₃, haside₃, hensured₃⟩ := hseeing₂.ensure hc hnext hbody
  obtain ⟨hending, haside₅, hwork⟩ := hseeing₃.check hrun he hnew hpop body exit
  have hnotwalked : ¬ s₅.processed.Holds (s₅.graph.offset body) := by
    rw [hensured₃.offset_eq, BitSet.contains_of_inRange hseeing₃.progress.marks.processed_base
      (hc.inRange_of_starts hnext)] at hcontains
    rw [haside₅.processed_eq, hwork.offset_eq, hensured₃.offset_eq]
    exact fun hholds => absurd hholds.2 (by simpa using Except.ok.inj hcontains)
  have hexitoff : s₃.graph.offset exit = i.target := by
    rw [Graph.offset, hensured₃.old exit hensured₂.mem_live]
    exact hensured₂.offset_eq
  obtain rfl := hending.offset_eq
  have hfinished := hending.progress.finishLoop hc hending.current_eq hlast he
    (hwork.live_eq ▸ hensured₃.mem_live) ((hwork.offset_eq body).trans hensured₃.offset_eq)
    (hwork.live_eq ▸ hensured₃.toExtends.live_subset exit hensured₂.mem_live)
    ((hwork.offset_eq exit).trans hexitoff) hnotwalked hending.tracks hleaves hpush
  exact hfinished.of_aside (((haside₁.trans haside₂).trans haside₃).trans haside₅)

/-- A block that runs into the next one is finished. -/
theorem fall {a : BlockId} (h : Walking c done b o (c.blockRun o) s) (hc : c.Sound)
    (hlast : (c.blockRun o).getLast? = some i) (hflow : i.op.flow = .goesOn)
    (ha : s.graph.find? i.next = some a) (hok : Lift.jumpTo a s = .ok () s') :
    Finished c done b o s s' := by
  obtain ⟨halive, hoffset⟩ := Graph.offset_of_find?_eq_some ha
  have hending : Ending c done b o (.jump a) none s :=
    ⟨h.progress, h.current_eq, h.offset_eq, Graph.Follows.fall h.tracks a⟩
  refine hending.finish hc hlast ?_ (by simpa [Terminator.targets] using halive) ?_
    (Lift.jumpTo_ok hok)
  · intro hfor
    rw [Opcode.flow_eq_of_effect? hfor] at hflow
    cases hflow
  · intro p
    rw [Instruction.successors, hflow]
    simp [Terminator.targets, hoffset, eq_comm]

/-- A block that ends with an instruction from which control does not just go on is finished after
that instruction. -/
theorem leave {e : Effect} (h : Walking c done b o run s) (hc : c.Sound)
    (hrun : c.blockRun o = run ++ [i]) (he : i.op.effect? = some e) (hflow : e.flow ≠ .goesOn)
    (hok : Lift.perform i e s = .ok () s') :
    Finished c done b o s s' := by
  cases e with
  | ret => exact h.ret hc hrun he hok
  | jump => exact h.jump hc hrun he hok
  | branch pops jumpsOn => exact h.branch hc hrun he hok
  | forLoop => exact h.forLoop hc hrun he hok
  | _ => exact absurd rfl hflow

end Lifter.Tracking

/-! ## Walking -/

theorem Code.stepsOf_concat (c : Code) (done : List Int) (o : Int) :
    c.stepsOf (done ++ [o]) =
      c.stepsOf done ++ (c.blockRun o).map fun i => (blockName o, i) := by
  simp [stepsOf]

/-! ## The order of the walks -/

/-- What holds of the order in which blocks are walked: each is reached from those that were walked
before, and the header of a loop comes before its body. -/
structure Lifter.Rooted (c : Code) (done : List Int) (s : Lifter) : Prop where
  around : ∀ p, s.pending.Holds p ∨ p ∈ done → ∀ avoid,
    (∀ q ∈ done, ∀ j ∈ c.blockRun q, j.offset ≠ avoid) → c.ReachesAround avoid p
  headers_first : done.Pairwise fun p o =>
    ∀ i ∈ c.blockRun o, i.op.effect? = some .forLoop → i.next ≠ p

namespace Lifter.Rooted

variable {c : Code} {done : List Int} {o : Int} {s s' : Lifter}

/-- Dropping an offset that was marked changes nothing for the others. -/
theorem drop (h : Rooted c done s) (ho : s.pending.Holds o) :
    Rooted c done { s with pending := s.pending.clearBit o.toNat } :=
  ⟨fun p hp => h.around p (hp.imp_left fun hp => ((BitSet.holds_clearBit ho.1 p).1 hp).1),
    h.headers_first⟩

/-- What is found at the end of a block is reached through the block. -/
theorem walk (h : Rooted c done s) (hc : c.Sound) (hprogress : Progress c done none s)
    (ho : s.pending.Holds o)
    (hdiscovers : Discovers c o { s with
      pending := s.pending.clearBit o.toNat
      processed := s.processed.setBit o.toNat } s') :
    Rooted c (done ++ [o]) s' := by
  have hmarks : Marks c done s.pending s.processed := by simpa using hprogress.marks
  obtain ⟨i, hlast, hpending, hheader⟩ := hdiscovers.last_cases
  have hmem := List.mem_of_getLast? hlast
  constructor
  · intro p hp avoid havoid
    have hdone : ∀ q ∈ done, ∀ j ∈ c.blockRun q, j.offset ≠ avoid := fun q hq =>
      havoid q (List.mem_append_left _ hq)
    have hrun := havoid o (List.mem_append_right _ (List.mem_singleton_self o))
    have hhere := h.around o (.inl ho) avoid hdone
    rcases hp with hp | hp
    · rcases hpending p hp with hold | hnew
      · exact h.around p (.inl ((BitSet.holds_clearBit ho.1 p).1 hold).1) avoid hdone
      · exact .step (hc.reachesAround_of_mem_runFrom hhere hrun hmem) (hrun i hmem)
          (hc.at?_offset (Code.mem_of_mem_runFrom hmem)) hnew
    · rcases List.mem_append.1 hp with hp | hp
      · exact h.around p (.inr hp) avoid hdone
      · rwa [List.mem_singleton.1 hp]
  · refine List.pairwise_append.2 ⟨h.headers_first, List.pairwise_singleton _ _, ?_⟩
    rintro p hp q hq j hj hfor rfl
    obtain rfl := List.mem_singleton.1 hq
    obtain rfl : j = i := Option.some.inj ((hc.getLast?_of_forLoop hj hfor).symm.trans hlast)
    exact hheader hfor ((BitSet.holds_setBit ho.1 _).2 (.inr ((hmarks.processed_iff _).2 hp)))

end Lifter.Rooted

namespace Lift

open Lifter

variable {c : Code} {done : List Int} {b : BlockId} {o p : Int} {run : List Instruction}
  {s s' : Lifter}

/-- Stepping the next instruction of the run of a block goes on with the run, or finishes the block
at its end. -/
theorem step_walking (hc : c.Sound) {i : Instruction} (h : Walking c done b o run s)
    (hrun : c.blockRun o = run ++ c.blockRun p) (hi : c.at? p = some i)
    (hok : step i s = .ok () s') :
    s'.steps = s.steps ++ [(blockName o, i)] ∧ s'.options = s.options ∧ s'.current = b ∧
      (i.op.flow = .goesOn ∧ Walking c done b o (run ++ [i]) s' ∧ s'.pending = s.pending ∧
          s'.processed = s.processed ∨
        i.op.flow ≠ .goesOn ∧ c.blockRun o = run ++ [i] ∧ Progress c (done ++ [o]) none s' ∧
          Discovers c o s s' ∧ (s'.graph.block b).isTerminated = true) := by
  obtain ⟨e, s₁, he, hbegins, hperform⟩ := step_ok hok
  obtain ⟨hwalking, hsteps⟩ := h.begins hbegins
  have hflow := Opcode.flow_eq_of_effect? he
  by_cases hgoes : i.op.flow = .goesOn
  · obtain ⟨hwalking', haside⟩ := hwalking.perform he (hflow ▸ hgoes) hperform
    exact ⟨haside.steps_eq.trans hsteps, haside.options_eq.trans hbegins.options_eq,
      hwalking'.current_eq, .inl ⟨hgoes, hwalking', haside.pending_eq.trans hbegins.pending_eq,
        haside.processed_eq.trans hbegins.processed_eq⟩⟩
  · have hend : c.blockRun o = run ++ [i] := by
      rw [hrun, Code.blockRun_eq _ p, hc.runFrom_eq hi c.isLabel, if_neg (hgoes ·.1)]
    have hfinished := hwalking.leave hc hend he (hflow ▸ hgoes) hperform
    exact ⟨hfinished.within.steps_eq.trans hsteps,
      hfinished.within.options_eq.trans hbegins.options_eq,
      hfinished.within.current_eq.trans hwalking.current_eq,
      .inr ⟨hgoes, hend, hfinished.progress,
        hfinished.discovers.of_eq hbegins.pending_eq hbegins.processed_eq,
        hfinished.isTerminated⟩⟩

/-- Behind an instruction from which control goes on there is another block and the run ends, or
there is none and the run goes on. -/
theorem next_cases (hc : c.Sound) {i : Instruction} (h : Walking c done b o (run ++ [i]) s)
    (hi : c.at? p = some i) (hflow : i.op.flow = .goesOn) :
    (∃ a, s.graph.find? i.next = some a ∧ c.isLabel i.next = true ∧ c.blockRun p = [i]) ∨
      s.graph.find? i.next = none ∧ c.isLabel i.next = false ∧
        c.blockRun p = i :: c.blockRun i.next := by
  have hrunp := hc.runFrom_eq hi c.isLabel
  rw [Code.blockRun_eq, hrunp]
  cases hfind : s.graph.find? i.next with
  | some a =>
    -- a block stands behind the instruction, so there is a label
    obtain ⟨ha, hoff⟩ := Graph.offset_of_find?_eq_some hfind
    have hstop := (hc.starts_next_iff ((hc.at?_eq_some_iff p i).1 hi).1 hflow).1
      (hoff ▸ h.progress.divided.starts a ha)
    exact .inl ⟨a, rfl, hstop, if_neg (by simp [hstop])⟩
  | none =>
    -- every label has a block, so there is none
    have hgo : c.isLabel i.next = false := by
      rw [← Bool.not_eq_true, hc.isLabel_iff]
      intro hyes
      obtain ⟨a, ha, hoff⟩ := h.progress.divided.label_block i.next hyes
      exact (Graph.find?_eq_none_iff _ _).1 hfind a ha hoff
    exact .inr ⟨rfl, hgo, if_pos ⟨hflow, hgo⟩⟩

/-- Walking on from an offset of the run of a block finishes the block. -/
theorem walkFrom_progress (hc : c.Sound) {fuel : Nat} (h : Walking c done b o run s)
    (hrun : c.blockRun o = run ++ c.blockRun p)
    (hsteps : s.steps = c.stepsOf done ++ run.map fun i => (blockName o, i))
    (hok : walkFrom c.at? p fuel s = .ok () s') :
    Progress c (done ++ [o]) none s' ∧ s'.steps = c.stepsOf (done ++ [o]) ∧
      s'.options = s.options ∧ Discovers c o s s' := by
  induction fuel generalizing p run s with
  | zero => cases hok
  | succ fuel ih =>
    rw [walkFrom] at hok
    cases hi : c.at? p with
    | none =>
      rw [hi] at hok
      obtain ⟨_, _, hget, hok⟩ := bind_eq_ok.1 hok
      cases hok
    | some i =>
      rw [hi] at hok
      obtain ⟨_, s₁, hstep, hok⟩ := bind_eq_ok.1 hok
      obtain ⟨_, _, hget, hok⟩ := bind_eq_ok.1 hok
      cases hget
      obtain ⟨hsteps₁, hoptions, hcurrent, hcases⟩ := step_walking hc h hrun hi hstep
      have hstepsi : s₁.steps = c.stepsOf done ++ (run ++ [i]).map fun i => (blockName o, i) := by
        rw [hsteps₁, hsteps]
        simp
      rw [hcurrent] at hok
      rcases hcases with ⟨hflow, hwalking, hpending, hprocessed⟩ |
        ⟨-, hend, hprogress, hdiscovers, hterminated⟩
      · rw [hwalking.isTerminated_eq] at hok
        rcases next_cases hc hwalking hi hflow with ⟨a, hfind, -, hrunp⟩ | ⟨hfind, -, hrunp⟩
        · rw [hfind] at hok
          rw [hrunp] at hrun
          rw [← hrun] at hwalking hstepsi
          have hfinished := hwalking.fall hc (by rw [hrun]; simp) hflow hfind hok
          exact ⟨hfinished.progress,
            by rw [hfinished.within.steps_eq, hstepsi, Code.stepsOf_concat],
            hfinished.within.options_eq.trans hoptions,
            hfinished.discovers.of_eq hpending hprocessed⟩
        · rw [hfind] at hok
          obtain ⟨hprogress, hdone, hoptions', hdiscovers⟩ := ih hwalking
            (by rw [hrun, hrunp]; simp) hstepsi hok
          exact ⟨hprogress, hdone, hoptions'.trans hoptions,
            hdiscovers.of_eq hpending hprocessed⟩
      · rw [hterminated] at hok
        cases hok
        exact ⟨hprogress, by rw [hstepsi, ← hend, Code.stepsOf_concat], hoptions, hdiscovers⟩

/-- Pushing arguments at the entry goes on with them. -/
theorem pushArgs_tracking {args : List String} {l : List (String × Nat)}
    (h : Tracking c done b o (Flat.runBlock args false []) (fun _ f => f.left = []) s)
    (hloop : c.isLoopBody done o = false)
    (hok : (l.forM (fun (name, i) => pushNew (.arg i name)) : Lift Unit) s = .ok () s') :
    Tracking c done b o (Flat.runBlock (args ++ l.map (·.1)) false []) (fun _ f => f.left = []) s' ∧
      s.Aside s' := by
  induction l generalizing args s with
  | nil =>
    cases hok
    exact ⟨by simpa using h, .refl _⟩
  | cons x l ih =>
    obtain ⟨name, i⟩ := x
    obtain ⟨_, s₁, hpush, hok⟩ := bind_eq_ok.1 hok
    obtain ⟨haside, hgraph⟩ := pushNew_ok hpush
    rw [h.current_eq] at hgraph
    have hphi : ∀ p, Expr.arg i name ≠ .phi p := by rintro p ⟨⟩
    have htracks := h.tracks
    rw [hloop] at htracks
    have hfollows := Graph.Follows.arg htracks h.wellFormed.typed h.lt_size s.line i name
    rw [← hgraph, Graph.Follows, ← hloop] at hfollows
    have h₁ := h.advances haside (hgraph ▸ s.graph.advances_emit b s.line hphi) hfollows
    rw [hloop] at h₁
    obtain ⟨h', haside'⟩ := ih h₁ hok
    exact ⟨by simpa using h', haside.trans haside'⟩

/-- The machine follows a block that was not walked yet. -/
theorem follows_unwalked {g : Graph} (hunwalked : g.Unwalked c done b) :
    g.Follows b [] (c.isLoopBody done (g.offset b)) [] := by
  cases hloop : c.isLoopBody done (g.offset b) with
  | false =>
    obtain ⟨hbody, hstack⟩ := hunwalked.fresh hloop
    exact Graph.follows_fresh hunwalked.phis_eq hbody hstack hunwalked.used_eq
  | true =>
    obtain ⟨u, hbody, hstack⟩ := hunwalked.primed hloop
    exact Graph.follows_primed hunwalked.phis_eq hbody hstack hunwalked.used_eq

/-- Entering a block pushes the arguments if it is the entry. -/
theorem enter_walking (hc : c.Sound) (h : Progress c done (some b) s) (hcurrent : s.current = b)
    (hoffset : s.graph.offset b = o) (hunwalked : s.graph.Unwalked c done b)
    (hok : (if o = 0 then pushArguments else pure ()) s = .ok () s') :
    Walking c done b o [] s' ∧ s.Aside s' := by
  have hfollows := follows_unwalked hunwalked
  rw [hoffset] at hfollows
  by_cases ho : o = 0
  · have hloop : c.isLoopBody done o = false := by rw [ho, hc.isLoopBody_zero]
    rw [if_pos ho] at hok
    obtain ⟨_, _, hget, hok⟩ := bind_eq_ok.1 hok
    cases hget
    obtain ⟨_, s₁, hline, hok⟩ := bind_eq_ok.1 hok
    cases hline
    rw [hloop] at hfollows
    have h₁ : Tracking c done b o (Flat.runBlock [] false []) (fun _ f => f.left = [])
        { s with line := Number.wrap (s.code.firstLine - 1) } :=
      ⟨h.of_eq rfl rfl rfl rfl, hcurrent, hoffset, by rw [hloop]; exact hfollows⟩
    obtain ⟨h', haside⟩ := pushArgs_tracking h₁ hloop hok
    rw [List.nil_append, List.zipIdx_map_fst, h.code_eq] at h'
    refine ⟨?_, ⟨haside.options_eq, haside.code_eq, haside.current_eq, haside.steps_eq⟩,
      haside.pending_eq, haside.processed_eq⟩
    rw [Walking, Code.argsAt, if_pos ho, hloop]
    exact h'
  · rw [if_neg ho] at hok
    cases hok
    refine ⟨⟨h, hcurrent, hoffset, ?_⟩, .refl s⟩
    rw [Code.argsAt, if_neg ho]
    exact hfollows

/-- Pushing the arguments cannot fail. -/
theorem exists_pushArguments (s : Lifter) : ∃ s', pushArguments s = .ok () s' := by
  have hall : ∀ (l : List (String × Nat)) (s : Lifter), ∃ s',
      (l.forM (fun (name, i) => pushNew (.arg i name)) : Lift Unit) s = .ok () s' := by
    intro l
    induction l with
    | nil => exact fun s => ⟨s, rfl⟩
    | cons x l ih =>
      intro s
      obtain ⟨s', h⟩ := ih _
      exact ⟨s', bind_eq_ok.2 ⟨(), _, rfl, h⟩⟩
  exact hall _ _

/-- Walking a block enters it and walks on from its offset. -/
theorem walk_cases (find : Int → Option Instruction) (o : Int) (s : Lifter) :
    ∃ b s₁ s₂ e, ensure o s = .ok b s₁ ∧ Trace.Event.step? e = none ∧
      e.start? = some (blockName o) ∧
      (if o = 0 then pushArguments else pure ()) ({ s₁ with current := b }.tell e) = .ok () s₂ ∧
      ((∃ s₃ e', walkFrom find o (s₂.code.instructions.length + 1) s₂ = .ok () s₃ ∧
          Trace.Event.step? e' = none ∧ e'.start? = none ∧
          walk find o s = .ok () (s₃.tell e')) ∨
        ∃ stop s₃, walkFrom find o (s₂.code.instructions.length + 1) s₂ = .error stop s₃ ∧
          walk find o s = .error stop s₃) := by
  obtain ⟨b, s₁, hensure⟩ : ∃ b s₁, ensure o s = .ok b s₁ := ⟨_, _, rfl⟩
  obtain ⟨e, he, hstart⟩ : ∃ e : Trace.Event, e.step? = none ∧
      e = .about .block "block start" [("block", .text (blockName o))] := ⟨_, rfl, rfl⟩
  obtain ⟨s₂, hargs⟩ : ∃ s₂, (if o = 0 then pushArguments else pure ())
      ({ s₁ with current := b }.tell e) = .ok () s₂ := by
    split
    · exact exists_pushArguments _
    · exact ⟨_, rfl⟩
  -- what is left to do is the same with and without arguments
  have hwalk : walk find o s = (do
      walkFrom find o (s₂.code.instructions.length + 1)
      let s ← get
      let x := s.graph.block b
      tell (.about .block "block done"
        [("block", .text (blockName o)), ("code", .int x.code.length),
          ("stack", .int x.stack.length), ("phis", .int x.phis.size),
          ("succs", .texts (x.succs.map s.graph.nameOf))]) : Lift Unit) s₂ := by
    unfold walk
    rw [bind_of_ok hensure]
    subst hstart
    by_cases ho : o = 0
    · rw [if_pos ho] at hargs
      simp only [if_pos ho]
      exact bind_of_ok hargs
    · rw [if_neg ho] at hargs
      cases hargs
      simp only [if_neg ho]
      rfl
  refine ⟨b, s₁, s₂, e, hensure, he, by rw [hstart]; rfl, hargs, ?_⟩
  rw [hwalk]
  cases hfrom : walkFrom find o (s₂.code.instructions.length + 1) s₂ with
  | ok u s₃ => exact .inl ⟨s₃, _, rfl, rfl, rfl, bind_of_ok hfrom⟩
  | error stop s₃ => exact .inr ⟨stop, s₃, rfl, bind_of_error hfrom⟩

/-- A walk finishes a block to come. -/
theorem walk_progress (hc : c.Sound) (h : Progress c done none s) (ho : s.pending.Holds o)
    (hnot : ¬ s.processed.Holds o) (hsteps : s.steps = c.stepsOf done) {s₀ : Lifter}
    (hs₀ : s₀ = { s with
      pending := s.pending.clearBit o.toNat
      processed := s.processed.setBit o.toNat })
    (hok : walk c.at? o s₀ = .ok () s') :
    Progress c (done ++ [o]) none s' ∧ s'.steps = c.stepsOf (done ++ [o]) ∧
      s'.options = s.options ∧ Discovers c o s₀ s' := by
  subst hs₀
  obtain ⟨b, s₁, s₂, e, hensure, he, -, henter,
    ⟨s₃, e', hwalk, he', -, heq⟩ | ⟨stop, s₃, -, heq⟩⟩ := walk_cases c.at? o _
  · rw [hok] at heq
    cases heq
    obtain ⟨hprogress, hoptions₁, hsteps₁, hoffset, hunwalked⟩ := h.begin hc ho hnot hensure
    have haside₁ := (ensure_ok hensure).1
    have haside := Lifter.aside_tell { s₁ with current := b } he
    have hprogress₁ : Progress c done (some b) ({ s₁ with current := b }.tell e) :=
      hprogress.of_eq rfl rfl rfl rfl
    obtain ⟨hwalking, haside₂⟩ := enter_walking hc hprogress₁ rfl hoffset hunwalked henter
    have hsteps₂ : s₂.steps = c.stepsOf done :=
      haside₂.steps_eq.trans (haside.steps_eq.trans (hsteps₁.trans hsteps))
    obtain ⟨hprogress', hsteps', hoptions, hdiscovers⟩ :=
      walkFrom_progress hc hwalking (by simp) (by simpa using hsteps₂) hwalk
    have haside₃ := s₃.aside_tell he'
    refine ⟨hprogress'.of_eq rfl rfl rfl rfl, haside₃.steps_eq.trans hsteps', ?_, ?_⟩
    · exact hoptions.trans (haside₂.options_eq.trans hoptions₁)
    · have := hdiscovers.of_eq (haside₂.pending_eq.trans haside₁.pending_eq)
        (haside₂.processed_eq.trans haside₁.processed_eq)
      exact ⟨this.processed_eq, this.last_cases⟩
  · rw [hok] at heq
    cases heq

/-- A round of the worklist ends it, drops an offset or walks a block. -/
theorem traverse_rounds (find : Int → Option Instruction) (s : Lifter) :
    (∃ r, (∀ fuel, traverse find (fuel + 1) s = r) ∧ ∀ s', r = .ok () s' → s' = s) ∨
    (∃ pending, ∀ fuel, traverse find (fuel + 1) s = traverse find fuel { s with pending }) ∨
    ∃ o pending processed, ∀ fuel, traverse find (fuel + 1) s =
      (walk find o >>= fun _ => traverse find fuel) { s with pending, processed } := by
  cases hfirst : s.pending.first? with
  | none =>
    refine .inl ⟨.ok () s, fun fuel => ?_, fun s' heq => by cases heq; rfl⟩
    rw [traverse, get_bind, hfirst]
    rfl
  | some o =>
    cases herase : s.pending.erase o with
    | error f =>
      refine .inl ⟨.error (.fault f) s, fun fuel => ?_, fun s' heq => by cases heq⟩
      rw [traverse, get_bind, hfirst]
      simp only [herase]
      rfl
    | ok pending =>
      cases hcontains : s.processed.contains o with
      | error f =>
        refine .inl ⟨.error (.fault f) { s with pending }, fun fuel => ?_,
          fun s' heq => by cases heq⟩
        rw [traverse, get_bind, hfirst]
        simp only [herase, hcontains]
        rfl
      | ok walked =>
        cases walked with
        | true =>
          refine .inr (.inl ⟨pending, fun fuel => ?_⟩)
          rw [traverse, get_bind, hfirst]
          simp only [herase, hcontains]
          rfl
        | false =>
          cases hinsert : s.processed.insert o with
          | error f processed =>
            refine .inl ⟨.error (.fault f) { s with pending }, fun fuel => ?_,
              fun s' heq => by cases heq⟩
            rw [traverse, get_bind, hfirst]
            simp only [herase, hcontains, hinsert]
            rfl
          | ok u processed =>
            refine .inr (.inr ⟨o, pending, processed, fun fuel => ?_⟩)
            rw [traverse, get_bind, hfirst]
            simp only [herase, hcontains, hinsert]
            rfl

theorem traverse_of_first?_eq_none (find : Int → Option Instruction)
    (hfirst : s.pending.first? = none) (fuel : Nat) : traverse find (fuel + 1) s = .ok () s := by
  rw [traverse, get_bind, hfirst]
  rfl

/-- The lowest offset to be walked is dropped if it was walked before, and walked otherwise. -/
theorem traverse_of_first?_eq_some (hc : c.Sound) (hmarks : Marks c done s.pending s.processed)
    (find : Int → Option Instruction) (hfirst : s.pending.first? = some o) (fuel : Nat) :
    s.pending.Holds o ∧
      (s.processed.Holds o ∧ traverse find (fuel + 1) s =
          traverse find fuel { s with pending := s.pending.clearBit o.toNat } ∨
        ¬ s.processed.Holds o ∧ traverse find (fuel + 1) s =
          (walk find o >>= fun _ => traverse find fuel)
            { s with
              pending := s.pending.clearBit o.toNat
              processed := s.processed.setBit o.toNat }) := by
  have ho := (BitSet.holds_of_first?_eq_some hmarks.pending_base
    (fun p hp => hc.inRange_of_starts (hmarks.starts p hp)) hfirst).1
  have hrange := hc.inRange_of_starts (hmarks.starts o ho)
  refine ⟨ho, ?_⟩
  rw [traverse, get_bind, hfirst]
  simp only [BitSet.erase_of_inRange hmarks.pending_base hrange,
    BitSet.contains_of_inRange hmarks.processed_base hrange,
    BitSet.insert_of_inRange hmarks.processed_base hrange]
  cases hseen : s.processed.hasBit o.toNat with
  | true => exact .inl ⟨⟨hrange.1, hseen⟩, rfl⟩
  | false => exact .inr ⟨fun hholds => absurd hholds.2 (by simp [hseen]), rfl⟩

/-- A traversal ends, drops an offset or walks a block. -/
theorem traverse_cases (hc : c.Sound) (h : Progress c done none s) (fuel : Nat) :
    (∀ o, ¬ s.pending.Holds o) ∧ traverse c.at? (fuel + 1) s = .ok () s ∨
    ∃ o, s.pending.Holds o ∧
      (s.processed.Holds o ∧ traverse c.at? (fuel + 1) s =
          traverse c.at? fuel { s with pending := s.pending.clearBit o.toNat } ∨
        ¬ s.processed.Holds o ∧ traverse c.at? (fuel + 1) s =
          (walk c.at? o >>= fun _ => traverse c.at? fuel)
            { s with
              pending := s.pending.clearBit o.toNat
              processed := s.processed.setBit o.toNat }) := by
  have hmarks : Marks c done s.pending s.processed := by simpa using h.marks
  cases hfirst : s.pending.first? with
  | none =>
    exact .inl ⟨BitSet.not_holds_of_first?_eq_none hfirst, traverse_of_first?_eq_none _ hfirst fuel⟩
  | some o => exact .inr ⟨o, traverse_of_first?_eq_some hc hmarks c.at? hfirst fuel⟩

/-- Walking all blocks finishes all that are to be walked. -/
theorem traverse_progress (hc : c.Sound) {fuel : Nat} (h : Progress c done none s)
    (hrooted : Rooted c done s) (hsteps : s.steps = c.stepsOf done)
    (hok : traverse c.at? fuel s = .ok () s') :
    ∃ done', Progress c done' none s' ∧ Rooted c done' s' ∧ s'.steps = c.stepsOf done' ∧
      s'.options = s.options ∧ ∀ o, ¬ s'.pending.Holds o := by
  induction fuel generalizing done s with
  | zero => cases hok
  | succ fuel ih =>
    obtain ⟨hnone, heq⟩ | ⟨o, ho, ⟨hseen, heq⟩ | ⟨hnot, heq⟩⟩ := traverse_cases hc h fuel
    · rw [heq] at hok
      cases hok
      exact ⟨done, h, hrooted, hsteps, rfl, hnone⟩
    · rw [heq] at hok
      obtain ⟨done', h', hrooted', hsteps', hoptions', hnone⟩ :=
        ih (h.drop hseen) (hrooted.drop ho) hsteps hok
      exact ⟨done', h', hrooted', hsteps', hoptions', hnone⟩
    · rw [heq] at hok
      obtain ⟨_, s₁, hwalk, hok⟩ := bind_eq_ok.1 hok
      obtain ⟨h₁, hsteps₁, hoptions₁, hdiscovers⟩ := walk_progress hc h ho hnot hsteps rfl hwalk
      obtain ⟨done', h', hrooted', hsteps', hoptions', hnone⟩ :=
        ih h₁ (hrooted.walk hc h ho hdiscovers) hsteps₁ hok
      exact ⟨done', h', hrooted', hsteps', hoptions'.trans hoptions₁, hnone⟩

end Lift

end StackLift
