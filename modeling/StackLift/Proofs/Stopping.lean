/-
# What can stop a walk

A walk steps instruction after instruction.  Each is stepped, or the function is refused, or the
header of a loop is met and its body was walked already.  Nothing else stops it: there is a value in
each slot of a stack, offsets are keys of the sets of marks, no block is left twice, and less blocks
are marked than the traversal allows for.

* `Lift.Proceeds` : computations that can only refuse the function;
* `Lift.Halts` : what else stops the walk of a block;
* `Lift.walk_halts` : a walk stops for no other reason;
* `Lift.traverse_halts` : nor do all walks together.
-/
import StackLift.Proofs.Passes

namespace StackLift

/-! ## Computations that can only refuse the function -/

/-- Whether a function is refused, and not for what it does with its stack. -/
def Stop.Refuses (stop : Stop LiftError) : Prop := ∃ e, stop = .error e ∧ ∀ e', e ≠ .stack e'

/-- Whether there is a value in each slot of the stack of the current block. -/
structure Lifter.Solid (s : Lifter) : Prop where
  lt_size : s.current < s.graph.blocks.size
  stack : none ∉ (s.graph.block s.current).stack

namespace Lift

open Lifter

variable {s s' : Lifter} {i : Instruction}

/-- Whether a computation refuses the function, or succeeds and leaves a value in each slot. -/
def Proceeds {α : Type} (x : Lift α) (s : Lifter) : Prop :=
  (∃ stop s', x s = .error stop s' ∧ stop.Refuses) ∨ ∃ a s', x s = .ok a s' ∧ s'.Solid

theorem Proceeds.bind {α β : Type} {x : Lift α} {k : α → Lift β} (hx : Proceeds x s)
    (hk : ∀ a s', x s = .ok a s' → s'.Solid → Proceeds (k a) s') : Proceeds (x >>= k) s := by
  rcases hx with ⟨stop, s', hstop, hrefuses⟩ | ⟨a, s', hok, hsolid⟩
  · exact .inl ⟨stop, s', bind_of_error hstop, hrefuses⟩
  · unfold Proceeds
    rw [bind_of_ok hok]
    exact hk a s' hok hsolid

/-- The state can be looked at. -/
theorem Proceeds.get {α : Type} {k : Lifter → Lift α} (h : Proceeds (k s) s) :
    Proceeds (MonadState.get >>= k) s := h

theorem proceeds_fail {α : Type} {e : LiftError} (he : ∀ e', e ≠ .stack e') (s : Lifter) :
    Proceeds (fail e : Lift α) s :=
  .inl ⟨_, s, rfl, e, rfl, he⟩

/-- Telling about an operand that is got from the graph succeeds if it is there. -/
theorem exists_onGraph_tellUnderflow {f : Graph → Operand × Graph} {u : ValueId}
    (hu : (f s.graph).1 = some u) :
    ∃ s', (do let v ← onGraph f; tellUnderflow v; return v : Lift Operand) s = .ok (some u) s' := by
  have htell : ∀ s, ∃ s', tellUnderflow (some u) s = .ok () s' := by
    intro s
    rw [tellUnderflow, get_bind]
    dsimp only
    cases (s.graph.definition u).phi? with
    | some p => exact ⟨_, rfl⟩
    | none => exact ⟨s, rfl⟩
  obtain ⟨s', htell⟩ := htell { s with graph := (f s.graph).2 }
  have hget : onGraph f s = .ok (some u) { s with graph := (f s.graph).2 } := by
    rw [← hu]
    rfl
  exact ⟨s', bind_eq_ok.2 ⟨_, _, hget, bind_eq_ok.2 ⟨(), s', htell, rfl⟩⟩⟩

/-- The top of a block is there, and so is what is below it. -/
theorem top_solid (h : s.Solid) (pops : Bool) :
    (∃ u, (s.graph.top pops s.current s.line).1 = some u) ∧
      none ∉ ((s.graph.top pops s.current s.line).2.block s.current).stack := by
  have hpeek : (∃ u, (s.graph.peek s.current s.line).1 = some u) ∧
      ((s.graph.peek s.current s.line).2.block s.current).stack =
        (s.graph.block s.current).stack := by
    rcases Graph.peek_cases h.lt_size s.line with ⟨v, rest, hstack, hv, hblock⟩ |
      ⟨new, v, hstack, -, hv, -, hblock⟩
    · cases v with
      | none => exact absurd (by rw [hstack]; exact List.mem_cons_self) h.stack
      | some u => exact ⟨⟨u, hv⟩, by rw [hblock]⟩
    · exact ⟨⟨v, hv⟩, by rw [hblock]⟩
  obtain ⟨htop, hstack⟩ := hpeek
  cases pops with
  | false => exact ⟨htop, hstack ▸ h.stack⟩
  | true =>
    have hlt : s.current < (s.graph.peek s.current s.line).2.blocks.size :=
      (s.graph.worksIn_peek s.current s.line).size_eq ▸ h.lt_size
    unfold Graph.top
    rw [if_pos rfl, Graph.pop_eq]
    refine ⟨htop, fun hmem => h.stack (hstack ▸ ?_)⟩
    rw [Graph.block_modifyBlock_self hlt] at hmem
    unfold Graph.dropTop at hmem
    split at hmem
    · rename_i heq
      rw [heq]
      exact List.mem_cons_of_mem _ hmem
    · exact hmem

/-- The top of a block can be taken or looked at. -/
theorem exists_top (h : s.Solid) (pops : Bool) :
    ∃ v s', (if pops then pop else peek) s = .ok v s' ∧ s'.Solid := by
  obtain ⟨⟨u, hu⟩, hstack⟩ := top_solid h pops
  have hex : ∃ v s', (if pops then pop else peek) s = .ok v s' := by
    cases pops with
    | true => exact ⟨_, exists_onGraph_tellUnderflow (f := (·.pop s.current s.line)) hu⟩
    | false => exact ⟨_, exists_onGraph_tellUnderflow (f := (·.peek s.current s.line)) hu⟩
  obtain ⟨v, s', hok⟩ := hex
  obtain ⟨haside, hgraph, -⟩ := top_ok hok
  refine ⟨v, s', hok, ?_, ?_⟩
  · rw [haside.current_eq, hgraph, (s.graph.advances_top pops s.current s.line).size_eq]
    exact h.lt_size
  · rw [haside.current_eq, hgraph]
    exact hstack

theorem proceeds_pop (h : s.Solid) : Proceeds pop s := .inr (exists_top h true)

theorem proceeds_pushNew (h : s.Solid) (e : Expr) : Proceeds (pushNew e) s := by
  refine .inr ⟨(), _, rfl, ?_, ?_⟩
  · have hwork := s.graph.worksIn_emit s.current s.line e
    exact Nat.lt_of_lt_of_eq h.lt_size hwork.size_eq.symm
  · have hblock := Graph.block_emit_self h.lt_size s.line e
    change none ∉ ((s.graph.emit s.current s.line e).block s.current).stack
    rw [hblock]
    simpa using h.stack

theorem proceeds_localName (h : s.Solid) : Proceeds (localName i) s := by
  refine .get ?_
  cases pick? s.code.varnames i.arg with
  | some name => exact .inr ⟨name, s, rfl, h⟩
  | none => exact proceeds_fail (by rintro e' ⟨⟩) s

theorem proceeds_keywordName (h : s.Solid) (v : Operand) : Proceeds (keywordName i v) s := by
  refine .get ?_
  dsimp only
  split
  · exact .inr ⟨_, s, rfl, h⟩
  · exact proceeds_fail (by rintro e' ⟨⟩) s
  · exact proceeds_fail (by rintro e' ⟨⟩) s

theorem proceeds_popArgs (h : s.Solid) (n : Nat) (after : List Operand) :
    Proceeds (popArgs n after) s := by
  induction n generalizing s after with
  | zero => exact .inr ⟨after, s, rfl, h⟩
  | succ n ih => exact (proceeds_pop h).bind fun v s₁ _ h₁ => ih h₁ (v :: after)

theorem proceeds_popKeywords (h : s.Solid) (n : Nat) (after : List Keyword) :
    Proceeds (popKeywords i n after) s := by
  induction n generalizing s after with
  | zero => exact .inr ⟨after, s, rfl, h⟩
  | succ n ih =>
    refine (proceeds_pop h).bind fun value s₁ _ h₁ => (proceeds_pop h₁).bind fun key s₂ _ h₂ => ?_
    exact (proceeds_keywordName h₂ key).bind fun name s₃ _ h₃ => ih h₃ _

theorem proceeds_binary (h : s.Solid) (o : Operator) : Proceeds (binary o) s :=
  (proceeds_pop h).bind fun _ _ _ h₁ => (proceeds_pop h₁).bind fun _ _ _ h₂ =>
    proceeds_pushNew h₂ _

/-- An effect from which control goes on can only refuse the function. -/
theorem proceeds_perform {e : Effect} (hflow : e.flow = .goesOn) (h : s.Solid) :
    Proceeds (perform i e) s := by
  cases e with
  | nothing => exact .inr ⟨(), s, rfl, h⟩
  | loadConst =>
    refine .get ?_
    cases pick? s.code.consts i.arg with
    | some c => exact proceeds_pushNew h _
    | none => exact proceeds_fail (by rintro e' ⟨⟩) s
  | loadLocal => exact (proceeds_localName h).bind fun name s₁ _ h₁ => proceeds_pushNew h₁ _
  | loadGlobal =>
    refine .get ?_
    cases pick? s.code.names i.arg with
    | some name => exact proceeds_pushNew h _
    | none => exact proceeds_fail (by rintro e' ⟨⟩) s
  | storeLocal =>
    exact (proceeds_localName h).bind fun name s₁ _ h₁ => (proceeds_pop h₁).bind fun v s₂ _ h₂ =>
      proceeds_pushNew h₂ _
  | unary o => exact (proceeds_pop h).bind fun v s₁ _ h₁ => proceeds_pushNew h₁ _
  | binary o => exact proceeds_binary h o
  | compare =>
    unfold perform compare
    cases pick? Operator.comparisons i.arg with
    | some o => exact proceeds_binary h o
    | none => exact proceeds_fail (by rintro e' ⟨⟩) s
  | call =>
    refine (proceeds_popKeywords h _ _).bind fun kws s₁ _ h₁ => ?_
    refine (proceeds_popArgs h₁ _ _).bind fun args s₂ _ h₂ => ?_
    exact (proceeds_pop h₂).bind fun callee s₃ _ h₃ => proceeds_pushNew h₃ _
  | forLoop => cases hflow
  | branch pops jumpsOn => cases hflow
  | jump => cases hflow
  | ret => cases hflow

/-! ## Leaving a block -/

/-- A block can be marked if its offset is a key. -/
theorem schedule_eq {a : BlockId} (hbase : s.pending.base = 0)
    (hrange : BitSet.InRange (s.graph.offset a)) : schedule a s =
      .ok () { s with pending := s.pending.setBit (s.graph.offset a).toNat } := by
  unfold schedule
  rw [get_bind, BitSet.insert_of_inRange hbase hrange]
  rfl

/-- A block can be left if it was not left before. -/
theorem exists_terminate (hopen : (s.graph.block s.current).terminator = none) (t : Terminator) :
    ∃ s', terminate t s = .ok () s' := by
  unfold terminate Graph.terminate
  rw [get_bind, hopen]
  exact ⟨_, rfl⟩

theorem exists_jumpTo {a : BlockId} (hbase : s.pending.base = 0)
    (ha : BitSet.InRange (s.graph.offset a))
    (hopen : (s.graph.block s.current).terminator = none) : ∃ s', jumpTo a s = .ok () s' := by
  obtain ⟨s', hterm⟩ := exists_terminate
    (s := { s with pending := s.pending.setBit (s.graph.offset a).toNat }) hopen (.jump a)
  exact ⟨s', bind_eq_ok.2 ⟨(), _, schedule_eq hbase ha, hterm⟩⟩

theorem exists_branchTo {a a' : BlockId} (hbase : s.pending.base = 0)
    (ha : BitSet.InRange (s.graph.offset a)) (ha' : BitSet.InRange (s.graph.offset a'))
    (hopen : (s.graph.block s.current).terminator = none) (cond : Operand) :
    ∃ s', branchTo cond a a' s = .ok () s' := by
  have hsched := schedule_eq hbase ha
  have hsched' := schedule_eq (a := a')
    (s := { s with pending := s.pending.setBit (s.graph.offset a).toNat }) hbase ha'
  obtain ⟨s', hterm⟩ := exists_terminate (s := { s with
    pending := (s.pending.setBit (s.graph.offset a).toNat).setBit (s.graph.offset a').toNat })
    hopen (.branch cond a a')
  exact ⟨s', bind_eq_ok.2 ⟨(), _, hsched, bind_eq_ok.2 ⟨(), _, hsched', hterm⟩⟩⟩

/-- A block can be asked for at any offset. -/
theorem exists_ensure (o : Int) (s : Lifter) : ∃ b s', ensure o s = .ok b s' := ⟨_, _, rfl⟩

/-- What stops the walk of the block at an offset, after those at the offsets `done`. -/
inductive Halts (c : Code) (done : List Int) (o : Int) : Stop LiftError → Prop
  | refuses {stop : Stop LiftError} (h : stop.Refuses) : Halts c done o stop
  /-- The block ends with the header of a loop, and the body was walked before. -/
  | early {i : Instruction} (hlast : (c.blockRun o).getLast? = some i)
      (hfor : i.op.effect? = some .forLoop) (hdone : i.next ∈ done) :
      Halts c done o (.fault (.inconsistent (.bodyBeforeHeader i.next o)))

end Lift

namespace Lifter.Tracking

variable {c : Code} {done : List Int} {b : BlockId} {o : Int} {run : List Instruction}
  {s s' : Lifter} {i : Instruction} {machine : Flat → Option Flat}
  {R : (Operand → Token → Prop) → Flat → Prop}

/-- There is a value in each slot of the block that is walked. -/
theorem solid (h : Tracking c done b o machine R s) : s.Solid := by
  refine ⟨h.current_eq ▸ h.lt_size, fun hmem => ?_⟩
  rw [h.current_eq] at hmem
  -- whatever the machine enters the block with, the slots stand for tokens
  obtain ⟨f, -, hmirrors, -⟩ :=
    (h.tracks 0 (List.replicate (s.graph.block b).phis.size ⟨0, 0⟩)).1 (by simp)
  obtain ⟨top, -, hall⟩ := hmirrors.stack
  obtain ⟨k, hk, hnone⟩ := List.mem_iff_getElem.1 hmem
  obtain ⟨u, hu, -⟩ := hall.get hk (hall.length_eq ▸ hk)
  rw [List.get_eq_getElem, hnone] at hu
  cases hu

theorem open_current (h : Tracking c done b o machine R s) :
    (s.graph.block s.current).terminator = none := by
  rw [h.current_eq]
  exact (h.progress.divided.now_open b rfl).1

/-- The offset of a block that was asked for is a key. -/
theorem inRange_of_ensured {p : Int} {a : BlockId} {g : Graph}
    (h : Tracking c done b o machine R s) (hc : c.Sound) (he : Graph.Ensured p g s.graph a) :
    BitSet.InRange (s.graph.offset a) :=
  hc.inRange_of_starts (h.progress.divided.starts a he.mem_live)

theorem exists_ret (h : Walking c done b o run s) (hrun : c.blockRun o = run ++ [i])
    (he : i.op.effect? = some .ret) : ∃ s', Lift.ret s = .ok () s' := by
  obtain ⟨v, s₁, hpop, -⟩ := Lift.exists_top h.solid true
  obtain ⟨hending, -⟩ := h.top (t := .retVoid) true hrun (.inl rfl) (Flat.step_ret he) hpop
  obtain ⟨t, -, hret⟩ := Lift.ret_of_pop hpop
  rw [hret]
  exact Lift.exists_terminate hending.open_current t

theorem exists_jump (h : Walking c done b o run s) (hc : c.Sound)
    (hrun : c.blockRun o = run ++ [i]) (he : i.op.effect? = some .jump) :
    ∃ s', Lift.jump i s = .ok () s' := by
  have hmem : i ∈ c.blockRun o := by
    rw [hrun]
    simp
  have htarget := hc.target_mem_labels (Code.mem_of_mem_runFrom hmem)
    (.inl (Opcode.flow_eq_of_effect? he))
  obtain ⟨a, s₁, hensure⟩ := Lift.exists_ensure i.target s
  obtain ⟨h₁, -, hensured⟩ := h.ensure hc (.inr (.inl htarget)) hensure
  obtain ⟨s', hjump⟩ := Lift.exists_jumpTo h₁.progress.marks.pending_base
    (h₁.inRange_of_ensured hc hensured) h₁.open_current
  exact ⟨s', bind_eq_ok.2 ⟨a, s₁, hensure, hjump⟩⟩

/-- Both blocks behind a fork can be asked for, and the block can be left for them. -/
theorem exists_fork (h : Tracking c done b o machine R s) (hc : c.Sound) {p p' : Int}
    (hp : c.Starts p) (hp' : c.Starts p') (cond : Operand) :
    ∃ s', (do
      let a ← Lift.ensure p
      let a' ← Lift.ensure p'
      Lift.branchTo cond a a' : Lift Unit) s = .ok () s' := by
  obtain ⟨a, s₁, hensure⟩ := Lift.exists_ensure p s
  obtain ⟨h₁, -, hensured⟩ := h.ensure hc hp hensure
  obtain ⟨a', s₂, hensure'⟩ := Lift.exists_ensure p' s₁
  obtain ⟨h₂, -, hensured'⟩ := h₁.ensure hc hp' hensure'
  have ha : BitSet.InRange (s₂.graph.offset a) :=
    hc.inRange_of_starts (h₂.progress.divided.starts a
      (hensured'.toExtends.live_subset a hensured.mem_live))
  obtain ⟨s', hbranch⟩ := Lift.exists_branchTo h₂.progress.marks.pending_base ha
    (h₂.inRange_of_ensured hc hensured') h₂.open_current cond
  exact ⟨s', bind_eq_ok.2 ⟨a, s₁, hensure, bind_eq_ok.2 ⟨a', s₂, hensure', hbranch⟩⟩⟩

theorem exists_branch {pops jumpsOn : Bool} (h : Walking c done b o run s) (hc : c.Sound)
    (hrun : c.blockRun o = run ++ [i]) (he : i.op.effect? = some (.branch pops jumpsOn)) :
    ∃ s', Lift.branch pops jumpsOn i s = .ok () s' := by
  have hlast : (c.blockRun o).getLast? = some i := by
    rw [hrun]
    simp
  obtain ⟨htarget, hnext⟩ := h.starts_of_forks hc hlast (Opcode.flow_eq_of_effect? he)
  obtain ⟨cond, s₁, htop, -⟩ := Lift.exists_top h.solid pops
  obtain ⟨hending, -⟩ :=
    h.top (t := .branch cond 0 0) pops hrun (.inr rfl) (Flat.step_branch he) htop
  have hfork : ∃ s', (if jumpsOn then do
        let target ← Lift.ensure i.target
        let next ← Lift.ensure i.next
        Lift.branchTo cond target next
      else do
        let next ← Lift.ensure i.next
        let target ← Lift.ensure i.target
        Lift.branchTo cond next target : Lift Unit) s₁ = .ok () s' := by
    cases jumpsOn with
    | true => exact hending.exists_fork hc htarget hnext cond
    | false => exact hending.exists_fork hc hnext htarget cond
  obtain ⟨s', hfork⟩ := hfork
  cases pops with
  | true => exact ⟨s', bind_eq_ok.2 ⟨cond, s₁, htop, hfork⟩⟩
  | false => exact ⟨s', bind_eq_ok.2 ⟨cond, s₁, htop, hfork⟩⟩

/-- The header of a loop can be left, unless the body was walked before. -/
theorem forLoop_cases (h : Walking c done b o run s) (hc : c.Sound)
    (hrun : c.blockRun o = run ++ [i]) (he : i.op.effect? = some .forLoop) :
    (∃ s', Lift.forLoop i s = .ok () s') ∨ s.processed.Holds i.next ∧
      ∃ s', Lift.forLoop i s = .error (.fault (.inconsistent (.bodyBeforeHeader i.next o))) s' := by
  have hlast : (c.blockRun o).getLast? = some i := by
    rw [hrun]
    simp
  obtain ⟨htarget, hnext⟩ := h.starts_of_forks hc hlast (Opcode.flow_eq_of_effect? he)
  obtain ⟨it, s₁, hpeek, -⟩ := Lift.exists_top h.solid false
  obtain ⟨h₁, haside₁⟩ := h.peek hpeek
  obtain ⟨exit, s₂, hexit⟩ := Lift.exists_ensure i.target s₁
  obtain ⟨h₂, haside₂, hensured₂⟩ := h₁.ensure hc htarget hexit
  obtain ⟨body, s₃, hbody⟩ := Lift.exists_ensure i.next s₂
  obtain ⟨h₃, haside₃, hensured₃⟩ := h₂.ensure hc hnext hbody
  have hcontains : s₃.processed.contains (s₃.graph.offset body) =
      .ok (s₃.processed.hasBit i.next.toNat) := by
    rw [hensured₃.offset_eq]
    exact BitSet.contains_of_inRange h₃.progress.marks.processed_base (hc.inRange_of_starts hnext)
  have hprocessed : s₃.processed = s.processed :=
    ((haside₁.trans haside₂).trans haside₃).processed_eq
  -- everything up to the check of the body succeeds
  have hloop : Lift.forLoop i s = (do
      if s₃.processed.hasBit i.next.toNat then
        Lift.inconsistent (.bodyBeforeHeader (s₃.graph.offset body) (s₃.graph.offset s₃.current))
      Lift.operate .iterValid [it]
      let cond ← Lift.pop
      Lift.branchTo cond body exit
      Lift.pushIn body (.call (some (.operator .iterNext)) [it] []) : Lift Unit) s₃ := by
    unfold Lift.forLoop
    rw [bind_of_ok (show Lift.peek s = .ok it s₁ from hpeek), bind_of_ok hexit, bind_of_ok hbody]
    rw [get_bind, hcontains]
    rfl
  rw [hloop]
  cases hwalked : s₃.processed.hasBit i.next.toNat with
  | true =>
    refine .inr ⟨?_, s₃, ?_⟩
    · rw [← hprocessed]
      exact ⟨(hc.inRange_of_starts hnext).1, hwalked⟩
    · rw [hensured₃.offset_eq, h₃.current_eq, h₃.offset_eq]
      rfl
  | false =>
    refine .inl ?_
    obtain ⟨s₄, hnew⟩ : ∃ s₄, Lift.pushNew (.call (some (.operator .iterValid)) [it] []) s₃ =
      .ok () s₄ := ⟨_, rfl⟩
    have hsolid : s₄.Solid := by
      obtain ⟨stop, s', hstop, -⟩ | ⟨u, s', hok, hsolid⟩ :=
        Lift.proceeds_pushNew h₃.solid (.call (some (.operator .iterValid)) [it] [])
      · rw [hnew] at hstop
        cases hstop
      · rw [hnew] at hok
        cases hok
        exact hsolid
    obtain ⟨cond, s₅, hpop, -⟩ := Lift.exists_top hsolid true
    obtain ⟨hending, -, hwork⟩ := h₃.check hrun he hnew hpop body exit
    have hin : ∀ a ∈ s₃.graph.live, BitSet.InRange (s₅.graph.offset a) := fun a ha =>
      hc.inRange_of_starts (hending.progress.divided.starts a (hwork.live_eq ▸ ha))
    obtain ⟨s₆, hbranch⟩ := Lift.exists_branchTo hending.progress.marks.pending_base
      (hin body hensured₃.mem_live)
      (hin exit (hensured₃.toExtends.live_subset exit hensured₂.mem_live)) hending.open_current cond
    exact ⟨_, bind_eq_ok.2 ⟨(), s₄, hnew, bind_eq_ok.2 ⟨cond, s₅, hpop,
      bind_eq_ok.2 ⟨(), s₆, hbranch, rfl⟩⟩⟩⟩

/-- Nothing stops an instruction at the end of a block but that it is the header of a loop, the body
of which was walked before. -/
theorem leave_error {e : Effect} {stop : Stop LiftError} (h : Walking c done b o run s)
    (hc : c.Sound) (hrun : c.blockRun o = run ++ [i]) (he : i.op.effect? = some e)
    (hflow : e.flow ≠ .goesOn) (hstop : Lift.perform i e s = .error stop s') :
    i.op.effect? = some .forLoop ∧ i.next ∈ done ∧
      stop = .fault (.inconsistent (.bodyBeforeHeader i.next o)) := by
  have hnever : ∀ {x : Lift Unit}, (∃ s', x s = .ok () s') → x s ≠ .error stop s' := by
    rintro x ⟨s'', hok⟩ heq
    rw [hok] at heq
    cases heq
  cases e with
  | ret => exact absurd hstop (hnever (h.exists_ret hrun he))
  | jump => exact absurd hstop (hnever (h.exists_jump hc hrun he))
  | branch pops jumpsOn => exact absurd hstop (hnever (h.exists_branch hc hrun he))
  | forLoop =>
    rcases h.forLoop_cases hc hrun he with hok | ⟨hwalked, s'', herror⟩
    · exact absurd hstop (hnever hok)
    · rw [show Lift.perform i .forLoop s = Lift.forLoop i s from rfl, herror] at hstop
      cases hstop
      refine ⟨he, ?_, rfl⟩
      -- the body is behind the header, so it is not the block itself
      have hmem : i ∈ c.blockRun o := by
        rw [hrun]
        simp
      have hlt := hc.lt_next_of_mem_runFrom hmem
      have hseen := (h.progress.marks.processed_iff i.next).1 hwalked
      simp only [Option.toList_some, List.map_cons, List.map_nil, List.mem_append,
        List.mem_singleton, h.offset_eq] at hseen
      exact hseen.resolve_right (Int.ne_of_gt hlt)
  | _ => exact absurd rfl hflow

end Lifter.Tracking

/-! ## Walking -/

namespace Lift

open Lifter

variable {c : Code} {done : List Int} {b : BlockId} {o p : Int} {run : List Instruction}
  {s s' : Lifter} {stop : Stop LiftError}

/-- What stops an instruction of the run of a block. -/
theorem step_halts (hc : c.Sound) {i : Instruction} (h : Walking c done b o run s)
    (hrun : c.blockRun o = run ++ c.blockRun p) (hi : c.at? p = some i)
    (hstop : step i s = .error stop s') : Halts c done o stop := by
  obtain ⟨-, s₁, herror, -⟩ | ⟨e, s₁, he, hbegins, hstep⟩ := step_cases i s
  · rw [herror] at hstop
    cases hstop
    exact .refuses ⟨_, rfl, by rintro e' ⟨⟩⟩
  · obtain ⟨hwalking, -⟩ := h.begins hbegins
    have hflow := Opcode.flow_eq_of_effect? he
    rw [hstep] at hstop
    by_cases hgoes : e.flow = .goesOn
    · rcases proceeds_perform hgoes hwalking.solid with
        ⟨stop', s₂, herror, hrefuses⟩ | ⟨u, s₂, hok, -⟩
      · rw [hstop] at herror
        cases herror
        exact .refuses hrefuses
      · rw [hstop] at hok
        cases hok
    · have hend : c.blockRun o = run ++ [i] := by
        rw [hrun, Code.blockRun_eq _ p, hc.runFrom_eq hi c.isLabel,
          if_neg fun hyes => hgoes (hflow ▸ hyes.1)]
      obtain ⟨hfor, hdone, rfl⟩ := hwalking.leave_error hc hend he hgoes hstop
      exact .early (by rw [hend]; simp) hfor hdone

/-- What stops a walk from an offset of the run of a block on. -/
theorem walkFrom_halts (hc : c.Sound) {fuel : Nat} (h : Walking c done b o run s)
    (hrun : c.blockRun o = run ++ c.blockRun p) (hfuel : (c.blockRun p).length < fuel)
    (hstop : walkFrom c.at? p fuel s = .error stop s') : Halts c done o stop := by
  induction fuel generalizing p run s with
  | zero => cases hfuel
  | succ fuel ih =>
    rw [walkFrom] at hstop
    cases hi : c.at? p with
    | none =>
      rw [hi] at hstop
      cases hstop
      exact .refuses ⟨_, rfl, by rintro e' ⟨⟩⟩
    | some i =>
      rw [hi] at hstop
      rcases bind_eq_error.1 hstop with hstep | ⟨⟨⟩, s₁, hstep, hstop⟩
      · exact step_halts hc h hrun hi hstep
      obtain ⟨-, -, hcurrent, hcases⟩ := step_walking hc h hrun hi hstep
      rw [get_bind, hcurrent] at hstop
      rcases hcases with ⟨hflow, hwalking, -, -⟩ | ⟨-, -, -, -, hterminated⟩
      · rw [hwalking.isTerminated_eq, if_neg Bool.false_ne_true] at hstop
        rcases next_cases hc hwalking hi hflow with ⟨a, hfind, -⟩ | ⟨hfind, -, hrunp⟩
        · -- nothing stops the jump to the next block
          rw [hfind] at hstop
          have ha := (Graph.offset_of_find?_eq_some hfind).1
          obtain ⟨s₂, hjump⟩ := exists_jumpTo hwalking.progress.marks.pending_base
            (hc.inRange_of_starts (hwalking.progress.divided.starts a ha)) hwalking.open_current
          cases hstop.symm.trans hjump
        · rw [hfind] at hstop
          rw [hrunp, List.length_cons] at hfuel
          exact ih hwalking (by rw [hrun, hrunp]; simp) (by omega) hstop
      · rw [hterminated] at hstop
        cases hstop

/-- What stops the walk of a block. -/
theorem walk_halts (hc : c.Sound) (h : Progress c done none s) (ho : s.pending.Holds o)
    (hnot : ¬ s.processed.Holds o)
    (hstop : walk c.at? o { s with
      pending := s.pending.clearBit o.toNat
      processed := s.processed.setBit o.toNat } = .error stop s') : Halts c done o stop := by
  obtain ⟨b, s₁, s₂, e, hensure, he, -, henter,
    ⟨s₃, e', -, -, -, heq⟩ | ⟨stop', s₃, hwalk, heq⟩⟩ := walk_cases c.at? o _
  · rw [hstop] at heq
    cases heq
  · rw [hstop] at heq
    cases heq
    obtain ⟨hprogress, -, -, hoffset, hunwalked⟩ := h.begin hc ho hnot hensure
    have hprogress₁ : Progress c done (some b) ({ s₁ with current := b }.tell e) :=
      hprogress.of_eq rfl rfl rfl rfl
    obtain ⟨hwalking, -⟩ := enter_walking hc hprogress₁ rfl hoffset hunwalked henter
    refine walkFrom_halts hc hwalking (List.nil_append _).symm ?_ hwalk
    rw [hwalking.progress.code_eq]
    exact Nat.lt_succ_of_le (c.runFrom_sublist c.isLabel o).length_le

/-! ## All walks -/

/-- Whether there are not more than `n` offsets in a set. -/
def Covered (s : BitSet) (n : Nat) : Prop :=
  ∃ l : List Int, l.length ≤ n ∧ ∀ o, s.Holds o → o ∈ l

/-- There is one less when one is taken out. -/
theorem Covered.clearBit {s : BitSet} {n : Nat} (h : Covered s (n + 1)) (ho : s.Holds o) :
    Covered (s.clearBit o.toNat) n := by
  obtain ⟨l, hlength, hall⟩ := h
  refine ⟨l.erase o, ?_, fun p hp => ?_⟩
  · rw [List.length_erase_of_mem (hall o ho)]
    omega
  · obtain ⟨hp, hne⟩ := (BitSet.holds_clearBit ho.1 p).1 hp
    exact (List.mem_erase_of_ne hne).2 (hall p hp)

theorem Covered.pos {s : BitSet} {n : Nat} (h : Covered s n) (ho : s.Holds o) : 0 < n := by
  obtain ⟨l, hlength, hall⟩ := h
  exact Nat.lt_of_lt_of_le (List.length_pos_of_mem (hall o ho)) hlength

/-- A walk marks two offsets at most. -/
theorem Covered.discovers {n : Nat} (h : Covered s.pending n) (hdiscovers : Discovers c o s s') :
    Covered s'.pending (n + 2) := by
  obtain ⟨l, hlength, hall⟩ := h
  obtain ⟨i, -, hpending, -⟩ := hdiscovers.last_cases
  refine ⟨l ++ i.successors, ?_, fun p hp => List.mem_append.2 ((hpending p hp).imp_left (hall p))⟩
  have : i.successors.length ≤ 2 := by
    unfold Instruction.successors
    split <;> simp
  rw [List.length_append]
  omega

/-- There are not more finished blocks than instructions. -/
theorem length_done_le (hc : c.Sound) {now : Option BlockId} (h : Progress c done now s) :
    done.length ≤ c.instructions.length := by
  have hnodup : done.Nodup := (List.nodup_append.1 h.marks.nodup).1
  have hsub : done ⊆ c.instructions.map (·.offset) := by
    intro o ho
    obtain ⟨b, -, rfl, i, t, iterator, hleft⟩ := h.divided.walked o ho
    obtain ⟨j, hj, hoff⟩ := hc.exists_start_of_mem_runFrom (List.mem_of_getLast? hleft.last)
    exact List.mem_map.2 ⟨j, Code.mem_of_mem_runFrom hj, hoff⟩
  simpa using (List.subperm_of_subset hnodup hsub).length_le

/-- What stops all walks together. -/
inductive HaltsAll (c : Code) : Stop LiftError → Prop
  | refuses {stop : Stop LiftError} (h : stop.Refuses) : HaltsAll c stop
  /-- The body of a loop was walked before its header, so control gets there around it. -/
  | early {i : Instruction} {o : Int} (hi : i ∈ c.blockRun o)
      (hfor : i.op.effect? = some .forLoop) (hreach : c.Reaches i.offset)
      (haround : c.ReachesAround i.offset i.next) :
      HaltsAll c (.fault (.inconsistent (.bodyBeforeHeader i.next o)))

theorem HaltsAll.ne_endless (h : HaltsAll c stop) : stop ≠ .endless := by
  cases h with
  | refuses h =>
    obtain ⟨e, rfl, -⟩ := h
    rintro ⟨⟩
  | early => rintro ⟨⟩

/-- What stops one walk stops all. -/
theorem Halts.all (h : Halts c done o stop) (hc : c.Sound) (hprogress : Progress c done none s)
    (hrooted : Rooted c done s) (ho : s.pending.Holds o) (hnot : ¬ s.processed.Holds o) :
    HaltsAll c stop := by
  have hmarks : Marks c done s.pending s.processed := by simpa using hprogress.marks
  cases h with
  | refuses h => exact .refuses h
  | @early i hlast hfor hdone =>
    have hmem := List.mem_of_getLast? hlast
    refine .early hmem hfor (hc.reaches_of_mem_runFrom (hmarks.reaches o (.inl ho)) hmem)
      (hrooted.around _ (.inr hdone) _ ?_)
    -- the header is in no block that was walked
    intro q hq j hj heq
    obtain rfl := hc.laidOut.eq_of_offset_eq (Code.mem_of_mem_runFrom hj)
      (Code.mem_of_mem_runFrom hmem) heq
    obtain ⟨a, ha, rfl, -⟩ := hprogress.divided.walked q hq
    have hsame := hc.start_eq_of_mem_runFrom (hprogress.divided.starts a ha) (hmarks.starts o ho)
      hj hmem
    exact hnot ((hmarks.processed_iff o).2 (hsame ▸ hq))

/-- What stops the walks of all blocks.  Each walk takes one mark away and makes two at most, and
there are not more walks than instructions. -/
theorem traverse_halts (hc : c.Sound) {fuel n : Nat} (h : Progress c done none s)
    (hrooted : Rooted c done s) (hsteps : s.steps = c.stepsOf done) (hcovered : Covered s.pending n)
    (hfuel : n + 2 * (c.instructions.length - done.length) < fuel)
    (hstop : traverse c.at? fuel s = .error stop s') : HaltsAll c stop := by
  induction fuel generalizing done s n with
  | zero => cases hfuel
  | succ fuel ih =>
    obtain ⟨-, heq⟩ | ⟨o, ho, ⟨hseen, heq⟩ | ⟨hnot, heq⟩⟩ := traverse_cases hc h fuel
    · rw [heq] at hstop
      cases hstop
    · rw [heq] at hstop
      obtain ⟨n, rfl⟩ := Nat.exists_eq_succ_of_ne_zero (Nat.pos_iff_ne_zero.1 (hcovered.pos ho))
      exact ih (h.drop hseen) (hrooted.drop ho) hsteps (hcovered.clearBit ho) (by omega) hstop
    · rw [heq] at hstop
      rcases bind_eq_error.1 hstop with hwalk | ⟨⟨⟩, s₁, hwalk, hstop⟩
      · exact (walk_halts hc h ho hnot hwalk).all hc h hrooted ho hnot
      · obtain ⟨n, rfl⟩ := Nat.exists_eq_succ_of_ne_zero (Nat.pos_iff_ne_zero.1 (hcovered.pos ho))
        obtain ⟨h₁, hsteps₁, -, hdiscovers⟩ := walk_progress hc h ho hnot hsteps rfl hwalk
        have hcovered₁ := Covered.discovers (s := { s with
          pending := s.pending.clearBit o.toNat
          processed := s.processed.setBit o.toNat }) (hcovered.clearBit ho) hdiscovers
        have hlength := length_done_le hc h₁
        rw [List.length_append, List.length_singleton] at hlength
        refine ih h₁ (hrooted.walk hc h ho hdiscovers) hsteps₁ hcovered₁ ?_ hstop
        rw [List.length_append, List.length_singleton]
        omega

end Lift

/-! ## A lift that stops -/

namespace Lifter

variable {c : Code} {options : LiftOptions} {s : Lifter} {stop : Stop LiftError}

/-- A lift stops in its walks, or at a phi that cannot be completed. -/
theorem all_error {s' : Lifter} (hc : c.Sound) (h : Progress c [] none s) (hrooted : Rooted c [] s)
    (hcovered : Lift.Covered s.pending 1) (hsteps : s.steps = [])
    (hstop : Lift.all s = .error stop s') :
    Lift.HaltsAll c stop ∨ ∃ e done g b slot, stop = .error (.stack e) ∧ Surveyed c done g s' ∧
      s'.graph.Stuck (Lift.depthLimit c) b slot e := by
  obtain ⟨e, s₀, herror, he⟩ | heq := Lift.all_cases s
  · rw [hstop] at herror
    cases herror
    exact .inl (.refuses ⟨e, rfl, he⟩)
  · rw [heq] at hstop
    obtain rfl := h.code_eq
    have hprogress : Progress s.code [] none { s with started := true } :=
      ⟨rfl, h.divided, h.marks, h.marked⟩
    have hrooted' : Rooted s.code [] { s with started := true } :=
      ⟨hrooted.around, hrooted.headers_first⟩
    rcases bind_eq_error.1 hstop with htraverse | ⟨⟨⟩, s₁, htraverse, hstop⟩
    · refine .inl (Lift.traverse_halts hc hprogress hrooted' hsteps hcovered ?_ htraverse)
      rw [Lift.traverseFuel, List.length_nil]
      omega
    · obtain ⟨done, hprogress₁, hrooted₁, hsteps₁, -, hnone⟩ :=
        Lift.traverse_progress hc hprogress hrooted' hsteps htraverse
      obtain ⟨s₂, -, ⟨hpasses, -⟩ | ⟨hsurveyed, e, b, slot, hpasses, hstuck⟩⟩ :=
        passes_cases hc (hprogress₁.traversed hrooted₁ hnone) hprogress₁.code_eq hsteps₁
      · cases hstop.symm.trans hpasses
      · cases hstop.symm.trans hpasses
        exact .inr ⟨e, done, s₁.graph, b, slot, rfl, hsurveyed, hstuck⟩

theorem lift_error (hc : c.Sound) (hstop : (ofCode c options).lift = .error stop s) :
    Lift.HaltsAll c stop ∨ ∃ e done g b slot, stop = .error (.stack e) ∧ Surveyed c done g s ∧
      s.graph.Stuck (Lift.depthLimit c) b slot e := by
  rw [lift_eq] at hstop
  unfold close at hstop
  split at hstop
  · cases hstop
  · rename_i stop' s' hall
    cases hstop
    have hopened := (isOpened_ofCode c options).opening
    obtain ⟨hprogress, hrooted⟩ := hopened.progress
    have hcovered : Lift.Covered (ofCode c options).pending 1 :=
      ⟨[0], Nat.le_refl 1, fun o ho => List.mem_singleton.2 (hopened.eq_zero_of_holds ho)⟩
    rcases all_error hc hprogress hrooted hcovered rfl hall with
      hhalts | ⟨e, done, g, b, slot, rfl, hsurveyed, hstuck⟩
    · exact .inl hhalts
    · exact .inr ⟨e, done, g, b, slot, rfl, hsurveyed.tell rfl, hstuck⟩

end Lifter

/-! ## Lifting a listing -/

/-- Whether a listing can be built and its lift stops for a reason that passes a check. -/
def Listing.stops (l : Listing) (check : Stop LiftError → Bool) : Bool :=
  match l.build with
  | .ok c =>
    match (Lifter.ofCode c {}).lift with
    | .ok () _ => false
    | .error stop _ => check stop
  | .error _ => false

theorem Listing.exists_of_stops {l : Listing} {check : Stop LiftError → Bool}
    (h : l.stops check = true) :
    ∃ c stop s, l.build = .ok c ∧ (Lifter.ofCode c {}).lift = .error stop s ∧
      check stop = true := by
  unfold stops at h
  split at h
  · rename_i c hbuild
    split at h
    · cases h
    · rename_i stop s hlift
      exact ⟨c, stop, s, hbuild, hlift, h⟩
  · cases h

end StackLift
