/-
# Operands stay in their block

The lifter takes operands from the stack of the block that it walks, where only values of the block
stand.  So operands are local in all states of a lift, also in those between two operations and in
the one in which it is stopped.

* `Holding` : the values that an instruction has taken are values of the block that is walked;
* `safe_perform` : instructions keep operands in the block, the header of a loop apart;
* `always_forLoop` : the header of a loop begins its body with the next element;
* `always_walkFrom`, `always_traverse` : so does walking the blocks;
* `PhiCompletion.always_drain` : what flows into a phi is a value of a predecessor;
* `operandsLocal_of_lift` : all states of a lift, none of which is left out.
-/
import StackLift.Proofs.Containment
import StackLift.Proofs.SingleChanges

namespace StackLift

/-- Only the header of a loop asks for the next element of an iterator. -/
theorem Opcode.operator_ne_iterNext {op : Opcode} {o : Operator}
    (h : op.effect? = some (.unary o) ∨ op.effect? = some (.binary o)) : o ≠ .iterNext := by
  unfold Opcode.effect? at h
  split at h <;> rcases h with h | h <;> cases h <;> decide

/-! ## The lifter -/

namespace Lifter

/-- Whether the operands keep to their blocks. -/
def Contained (c : Code) (s : Lifter) : Prop := s.graph.Contained c

/-- What holds when the values `vs` were taken in the block that is walked. -/
structure Holding (c : Code) (vs : List Operand) (s : Lifter) : Prop where
  contained : s.Contained c
  current_lt : s.current < s.graph.blocks.size
  held : ∀ v ∈ vs, ∃ u, v = some u ∧ u ∈ (s.graph.block s.current).code

namespace Holding

variable {c : Code} {vs ws : List Operand} {s s' : Lifter} {v : Operand}

/-- Some of the values that were taken. -/
theorem mono (h : s.Holding c vs) (hsub : ∀ v ∈ ws, v ∈ vs) : s.Holding c ws :=
  ⟨h.contained, h.current_lt, fun v hv => h.held v (hsub v hv)⟩

/-- Only the graph and the block that is walked matter. -/
theorem of_eq (h : s.Holding c vs) (hgraph : s'.graph = s.graph)
    (hcurrent : s'.current = s.current) : s'.Holding c vs := by
  refine ⟨?_, ?_, ?_⟩
  · rw [Lifter.Contained, hgraph]
    exact h.contained
  · rw [hgraph, hcurrent]
    exact h.current_lt
  · rw [hgraph, hcurrent]
    exact h.held

/-- What was taken comes before what is made next. -/
theorem before (h : s.Holding c vs) (hv : v ∈ vs) :
    s.graph.Before s.current (s.graph.block s.current).body.size v := by
  obtain ⟨u, rfl, hu⟩ := h.held v hv
  exact Graph.before_size_of_mem_code hu

/-- Work in the block that is walked leaves the values that were taken there. -/
theorem worksIn (h : s.Holding c vs) (hw : Graph.WorksIn s.current s.graph s'.graph)
    (hcurrent : s'.current = s.current) (hcontained : s'.Contained c)
    (hnew : ∀ v ∈ ws, v ∈ vs ∨ ∃ u, v = some u ∧ u ∈ (s'.graph.block s.current).code) :
    s'.Holding c ws := by
  refine ⟨hcontained, ?_, fun v hv => ?_⟩
  · rw [hcurrent, hw.size_eq]
    exact h.current_lt
  · rw [hcurrent]
    rcases hnew v hv with hold | hnew
    · obtain ⟨u, hu, hmem⟩ := h.held v hold
      exact ⟨u, hu, hw.grows.mem_code hmem⟩
    · exact hnew

/-- Other blocks may be asked for in between. -/
theorem of_grows (h : s.Holding c vs) (hg : s.graph.Grows s'.graph)
    (hcurrent : s'.current = s.current) (hsize : s.graph.blocks.size ≤ s'.graph.blocks.size)
    (hcontained : s'.Contained c) : s'.Holding c vs := by
  refine ⟨hcontained, ?_, fun v hv => ?_⟩
  · rw [hcurrent]
    exact Nat.lt_of_lt_of_le h.current_lt hsize
  · obtain ⟨u, hu, hmem⟩ := h.held v hv
    rw [hcurrent]
    exact ⟨u, hu, hg.mem_code hmem⟩

end Holding

/-- The body of a loop has no values before the header is left. -/
theorem Progress.body_eq_empty {c : Code} {i : Instruction} {done : List Int} {b body : BlockId}
    {s : Lifter} (h : Progress c done (some b) s) (hc : c.Sound)
    (hlast : (c.blockRun (s.graph.offset b)).getLast? = some i) (hbody : body ∈ s.graph.live)
    (hnext : s.graph.offset body = i.next) (hnew : ¬ s.processed.Holds (s.graph.offset body)) :
    body ≠ b ∧ (s.graph.block body).body = #[] := by
  have hne : body ≠ b := fun heq => hnew (heq ▸ (h.marks.processed_iff _).2 (by simp))
  have hnot : s.graph.offset body ∉ done := fun hyes =>
    hnew ((h.marks.processed_iff _).2 (List.mem_append_left _ hyes))
  have hunwalked := h.divided.unwalked body hbody (fun heq => hne (Option.some.inj heq).symm) hnot
  refine ⟨hne, (hunwalked.fresh ?_).1⟩
  rw [hnext]
  exact h.divided.isLoopBody_next hc hlast

end Lifter

namespace Lift

variable {c : Code} {vs : List Operand} {s s' : Lifter} {v : Operand}

/-- Marking blocks leaves the graph, the current block and the line alone. -/
theorem Schedules.same {bs : List BlockId} (h : Schedules bs s s') :
    s'.graph = s.graph ∧ s'.current = s.current ∧ s'.line = s.line := by
  induction h with
  | nil s => exact ⟨rfl, rfl, rfl⟩
  | cons hsched _ ih =>
    obtain ⟨pending, -, rfl⟩ := schedule_ok hsched
    exact ih

/-- Leaving a block marks others and changes the graph once. -/
theorem Leaves.terminate_eq {t : Terminator} (h : Leaves t s s') :
    s.graph.terminate s.current s.line t = .ok s'.graph := by
  obtain ⟨s₁, hsched, hterm⟩ := h
  obtain ⟨hgraph, hcurrent, hline⟩ := hsched.same
  obtain ⟨graph, hok, rfl⟩ := terminate_ok hterm
  rwa [hgraph, hcurrent, hline] at hok

/-- What was pushed last is popped again. -/
theorem pop_pushNew {e : Expr} {s₁ : Lifter} (hlt : s.current < s.graph.blocks.size)
    (hnew : pushNew e s = .ok () s₁) (hpop : pop s₁ = .ok v s') :
    ∃ w, v = some w ∧ (s'.graph.definition w).expr = some e := by
  obtain ⟨haside, hgraph₁⟩ := pushNew_ok hnew
  obtain ⟨-, hgraph₂, hv⟩ := pop_ok hpop
  rw [haside.current_eq, hgraph₁] at hgraph₂ hv
  obtain ⟨hpopped, hexpr⟩ := Graph.pop_emit hlt s.line s₁.line e
  exact ⟨_, hv.trans hpopped, hgraph₂ ▸ hexpr⟩

/-- A block may be left on values that were taken in it. -/
theorem contained_after_terminate {t : Terminator} (h : s.Holding c vs)
    (ht : ∀ n ∈ t.targets, n < s.graph.blocks.size) (hoperands : ∀ v ∈ t.operands, v ∈ vs) :
    (after (terminate t s)).Contained c := by
  unfold terminate
  rw [get_bind]
  cases hok : s.graph.terminate s.current s.line t with
  | error e => exact h.contained
  | ok graph =>
    exact h.contained.terminate h.current_lt ht (fun v hv => h.before (hoperands v hv)) hok

/-- A jump has no operands. -/
theorem contained_after_jumpTo {b : BlockId} (h : s.Holding c vs) (hb : b < s.graph.blocks.size) :
    (after (jumpTo b s)).Contained c := by
  refine after_bind ?_ fun _ s' hok _ => ?_
  · obtain ⟨pending, heq⟩ := after_schedule b s
    rw [heq]
    exact h.contained
  · obtain ⟨pending, -, rfl⟩ := schedule_ok hok
    exact contained_after_terminate (h.of_eq rfl rfl)
      (fun n hn => List.mem_singleton.1 hn ▸ hb) fun v hv => absurd hv List.not_mem_nil

/-- A branch depends on a value that was taken. -/
theorem contained_after_branchTo {b b' : BlockId} (h : s.Holding c vs)
    (hb : b < s.graph.blocks.size) (hb' : b' < s.graph.blocks.size) (hv : v ∈ vs) :
    (after (branchTo v b b' s)).Contained c := by
  refine after_bind ?_ fun _ s₁ hok₁ _ => after_bind ?_ fun _ s₂ hok₂ _ => ?_
  · obtain ⟨pending, heq⟩ := after_schedule b s
    rw [heq]
    exact h.contained
  · obtain ⟨pending, -, rfl⟩ := schedule_ok hok₁
    obtain ⟨pending', heq⟩ := after_schedule b' { s with pending }
    rw [heq]
    exact h.contained
  · obtain ⟨pending, -, rfl⟩ := schedule_ok hok₁
    obtain ⟨pending', -, rfl⟩ := schedule_ok hok₂
    refine contained_after_terminate (h.of_eq rfl rfl) (fun n hn => ?_)
      fun w hw => List.mem_singleton.1 hw ▸ hv
    rcases List.mem_cons.1 hn with rfl | hn
    · exact hb
    · exact List.mem_singleton.1 hn ▸ hb'

/-- Removing dead blocks keeps operands in their blocks. -/
theorem contained_after_findDominators (h : s.Contained c) :
    (after (findDominators s)).Contained c := by
  rcases findDominators_cases s with ⟨stop, heq⟩ | ⟨s', heq, hgraph⟩
  · rw [heq]
    exact h
  · rw [heq]
    change s'.graph.Contained c
    split at hgraph
    · rw [hgraph]
      exact h
    · rw [Graph.removeDead_eq h.regular.ordered.nodup] at hgraph
      rw [← Except.ok.inj hgraph]
      exact Graph.Contained.foldl_discard h _

end Lift

namespace Passing

open Passage Lifter

variable {c : Code} {vs : List Operand} {v : Operand} {i : Instruction}

/-- What is taken from the stack, or looked at, is a value of the block. -/
theorem safe_top (pops : Bool) :
    Safe (Contained c) (Holding c vs) (stride (if pops then Lift.pop else Lift.peek))
      fun v => Holding c (v :: vs) := by
  refine safe_stride (fun s h => ?_) fun s h v s' hok => ?_
  · rw [Lifter.Contained, Lift.graph_after_top]
    exact (h.contained.top pops h.current_lt s.line).1
  · obtain ⟨haside, hgraph, hv⟩ := Lift.top_ok hok
    obtain ⟨hcontained, htop⟩ := h.contained.top pops h.current_lt s.line
    rw [← hgraph] at hcontained htop
    rw [← hv] at htop
    refine h.worksIn (hgraph ▸ (s.graph.advances_top pops _ _).toWorksIn) haside.current_eq
      hcontained fun w hw => ?_
    rcases List.mem_cons.1 hw with rfl | hw
    · exact .inr htop
    · exact .inl hw

theorem safe_pop :
    Safe (Contained c) (Holding c vs) (stride Lift.pop) fun v => Holding c (v :: vs) :=
  safe_top true

theorem safe_peek :
    Safe (Contained c) (Holding c vs) (stride Lift.peek) fun v => Holding c (v :: vs) :=
  safe_top false

/-- A computation that reads the state only. -/
theorem safe_read {α : Type} {x : Lift α} (hx : ∀ s, after (x s) = s) :
    Safe (Contained c) (Holding c vs) (stride x) fun _ => Holding c vs := by
  refine safe_stride (fun s h => ?_) fun s h a s' hok => ?_
  · rw [hx]
    exact h.contained
  · have heq : s' = s := by simpa [hok, after] using hx s
    exact heq ▸ h

/-- A value that may be made in a block may be pushed there. -/
theorem always_pushIn {s : Lifter} {b : BlockId} {e : Expr} (hb : b < s.graph.blocks.size)
    (h : (s.graph.define b s.line (some e)).2.Contained c) :
    Always (Contained c) (pushIn b e) s := by
  refine (always_stride h).bind fun v s₁ hdefine _ => ?_
  cases hdefine
  refine always_stride (h.push ?_)
  rw [Graph.block_define_self hb]
  exact Array.mem_push_self

/-- A new value that is made of what was taken in the block. -/
theorem safe_pushNew {e : Expr} (hphi : ∀ p, e ≠ .phi p) (hnext : ¬ e.IsNext)
    (hoperands : ∀ v ∈ e.operands, v ∈ vs) :
    Safe (Contained c) (Holding c vs) (pushNew e) fun _ => Holding c vs := by
  intro s h
  have hdefine : (s.graph.define s.current s.line (some e)).2.Contained c := by
    refine h.contained.define h.current_lt s.line hphi (.plain ?_ hphi hnext fun w hw => ?_)
    · rw [Graph.definition_define, if_pos rfl]
    · exact (s.graph.worksIn_define _ _ _).grows.before (h.before (hoperands w hw))
  have halways : Always (Contained c) (pushNew e) s := by
    refine (always_stride h.contained).bind fun a s' hget _ => ?_
    cases hget
    exact always_pushIn h.current_lt hdefine
  refine ⟨halways, fun a s' hok => ?_⟩
  have hcontained : s'.Contained c := by simpa [hok, after] using halways.2
  rw [result_pushNew] at hok
  obtain ⟨haside, hgraph⟩ := Lift.pushNew_ok hok
  exact h.worksIn (hgraph ▸ s.graph.worksIn_emit _ _ _) haside.current_eq hcontained
    fun w hw => .inl hw

/-! ## Instructions -/

/-- A value that is loaded has no operands. -/
theorem safe_load {α : Type} (entry : Option α) {value : α → Expr} (e : LiftError)
    (hphi : ∀ a p, value a ≠ .phi p) (hnext : ∀ a, ¬ (value a).IsNext)
    (hoperands : ∀ a, (value a).operands = []) :
    Safe (Contained c) (Holding c vs) (load entry value e) fun _ => Holding c vs := by
  cases entry with
  | none => exact safe_read fun _ => rfl
  | some a => exact safe_pushNew (hphi a) (hnext a) (by simp [hoperands])

theorem always_orFault {α : Type} (r : Except Fault α) {s : Lifter} (h : s.Contained c) :
    Always (Contained c) (stride (Lift.orFault r)) s := by
  refine always_stride ?_
  rw [Lift.after_orFault]
  exact h

theorem safe_localName :
    Safe (Contained c) (Holding c vs) (stride (Lift.localName i)) fun _ => Holding c vs :=
  safe_read (Lift.after_localName i)

theorem safe_keywordName (v : Operand) :
    Safe (Contained c) (Holding c vs) (stride (Lift.keywordName i v)) fun _ => Holding c vs :=
  safe_read (Lift.after_keywordName i v)

/-- The arguments that are popped are values of the block. -/
theorem safe_popArgs (n : Nat) (args : List Operand) :
    Safe (Contained c) (Holding c (args ++ vs)) (popArgs n args)
      fun args' => Holding c (args' ++ vs) := by
  induction n generalizing args with
  | zero => exact safe_pure (fun s h => h.contained) fun s h => h
  | succ n ih => exact safe_pop.bind fun v => ih (v :: args)

/-- The values of the keywords that are popped are values of the block. -/
theorem safe_popKeywords (vs : List Operand) (n : Nat) (keywords : List Keyword) :
    Safe (Contained c) (Holding c (keywords.map (·.value) ++ vs)) (popKeywords i n keywords)
      fun keywords' => Holding c (keywords'.map (·.value) ++ vs) := by
  induction n generalizing keywords with
  | zero => exact safe_pure (fun s h => h.contained) fun s h => h
  | succ n ih =>
    refine safe_pop.bind fun value => safe_pop.bind fun key =>
      (safe_keywordName key).bind fun name => ?_
    exact (ih (⟨name, value⟩ :: keywords)).weaken fun s h => h.mono (by simp +contextual)

/-- Operators other than the one for the next element may be applied to what was taken. -/
theorem safe_operate (o : Operator) (ho : o ≠ .iterNext) (args : List Operand)
    (hargs : ∀ v ∈ args, v ∈ vs) :
    Safe (Contained c) (Holding c vs) (pushNew (.call (some (.operator o)) args []))
      fun _ => Holding c vs := by
  refine safe_pushNew (by rintro p ⟨⟩) ?_ (by simpa [Expr.operands] using hargs)
  rintro ⟨args, keywords, heq⟩
  cases heq
  exact ho rfl

/-- What is stored was popped before. -/
theorem safe_storeLocal :
    Safe (Contained c) (Holding c []) (storeLocal i) fun _ => Contained c := by
  refine safe_localName.bind fun name => safe_pop.bind fun v =>
    (safe_pushNew ?_ ?_ ?_).imp fun _ _ h => h.contained
  · rintro p ⟨⟩
  · rintro ⟨args, keywords, ⟨⟩⟩
  · exact fun w hw => hw

theorem safe_unary {o : Operator} (ho : o ≠ .iterNext) :
    Safe (Contained c) (Holding c []) (unary o) fun _ => Contained c :=
  safe_pop.bind fun _ => (safe_operate o ho _ fun _ hw => hw).imp fun _ _ h => h.contained

theorem safe_binary {o : Operator} (ho : o ≠ .iterNext) :
    Safe (Contained c) (Holding c []) (binary o) fun _ => Contained c :=
  safe_pop.bind fun _ => safe_pop.bind fun _ =>
    (safe_operate o ho _ fun _ hw => hw).imp fun _ _ h => h.contained

/-- No comparison is the operator for the next element. -/
theorem safe_compare : Safe (Contained c) (Holding c []) (compare i) fun _ => Contained c := by
  unfold compare
  cases ho : Lift.pick? Operator.comparisons i.arg with
  | none => exact (safe_read fun _ => rfl).imp fun _ _ h => h.contained
  | some o =>
    have hne : ∀ o ∈ Operator.comparisons, o ≠ .iterNext := by decide
    exact safe_binary (hne o (Lift.mem_of_pick?_eq_some ho))

/-- The callee and the arguments of a call were popped before. -/
theorem safe_call : Safe (Contained c) (Holding c []) (call i) fun _ => Contained c := by
  refine (safe_popKeywords [] _ []).bind fun keywords =>
    (safe_popArgs _ []).bind fun args => safe_pop.bind fun callee =>
      (safe_pushNew ?_ ?_ ?_).imp fun _ _ h => h.contained
  · rintro p ⟨⟩
  · rintro ⟨args', keywords', heq⟩
    cases callee <;> cases heq
  · -- the operands of the call are what was popped, in another order
    intro w hw
    cases callee <;> simpa [Expr.operands, or_assoc] using hw

/-- A block that is asked for is there, and so are those that were asked for before. -/
theorem safe_ensure (bs : List BlockId) (o : Int) :
    Safe (Contained c) (fun s => Holding c vs s ∧ ∀ a ∈ bs, a < s.graph.blocks.size)
      (stride (Lift.ensure o)) fun b s =>
        Holding c vs s ∧ ∀ a ∈ b :: bs, a < s.graph.blocks.size := by
  refine safe_stride (fun s h => h.1.contained.ensure o) fun s h b s' hok => ?_
  obtain ⟨haside, hgraph, rfl⟩ := Lift.ensure_ok hok
  have hcontained : s'.Contained c := by
    rw [Lifter.Contained, hgraph]
    exact h.1.contained.ensure o
  obtain ⟨hlt, hle⟩ := h.1.contained.regular.size_ensure o
  rw [← hgraph] at hlt hle
  refine ⟨h.1.of_grows (hgraph ▸ s.graph.grows_ensure o) haside.current_eq hle hcontained,
    fun a ha => ?_⟩
  rcases List.mem_cons.1 ha with rfl | ha
  · exact hlt
  · exact Nat.lt_of_lt_of_le (h.2 a ha) hle

theorem safe_jump : Safe (Contained c) (Holding c []) (jump i) fun _ => Contained c := by
  refine ((safe_ensure [] i.target).weaken fun s h => ⟨h, by simp⟩).bind fun a =>
    safe_of_always fun s h => always_stride ?_
  exact Lift.contained_after_jumpTo h.1 (h.2 a List.mem_cons_self)

/-- Two blocks are asked for, and the block is left for one of them. -/
theorem safe_fork (o o' : Int) (v : Operand) :
    Safe (Contained c) (Holding c [v])
      (do
        let a ← Lift.ensure o
        let a' ← Lift.ensure o'
        Lift.branchTo v a a' : Passing Unit) fun _ => Contained c := by
  refine ((safe_ensure [] o).weaken fun s h => ⟨h, by simp⟩).bind fun a =>
    (safe_ensure [a] o').bind fun a' => safe_of_always fun s h => always_stride ?_
  exact Lift.contained_after_branchTo h.1 (h.2 a (by simp)) (h.2 a' (by simp)) List.mem_cons_self

/-- The condition of a branch is taken before the block is left. -/
theorem safe_branch (pops jumpsOn : Bool) :
    Safe (Contained c) (Holding c []) (branch pops jumpsOn i) fun _ => Contained c := by
  cases pops <;> cases jumpsOn
  · exact safe_peek.bind fun v => safe_fork _ _ v
  · exact safe_peek.bind fun v => safe_fork _ _ v
  · exact safe_pop.bind fun v => safe_fork _ _ v
  · exact safe_pop.bind fun v => safe_fork _ _ v

/-- The value that is returned was popped before. -/
theorem safe_ret : Safe (Contained c) (Holding c []) ret fun _ => Contained c := by
  refine safe_pop.bind fun v => (safe_get fun s h => h.contained).bind fun s =>
    safe_of_always fun s' h => ?_
  dsimp only
  split
  · exact always_stride (Lift.contained_after_terminate h.2 (fun n hn => by cases hn)
      fun w hw => by cases hw)
  · exact always_stride (Lift.contained_after_terminate h.2 (fun n hn => by cases hn)
      fun w hw => hw)

/-- An instruction that is not the header of a loop keeps to the block that is walked. -/
theorem safe_perform {e : Effect} (he : i.op.effect? = some e) (hfor : e ≠ .forLoop) :
    Safe (Contained c) (Holding c []) (perform i e) fun _ => Contained c := by
  cases e with
  | nothing => exact safe_pure (fun s h => h.contained) fun s h => h.contained
  | loadConst =>
    refine (safe_get fun s h => h.contained).bind fun s =>
      ((safe_load _ _ ?_ ?_ ?_).weaken fun s h => h.2).imp fun _ _ h => h.contained
    · rintro x p ⟨⟩
    · rintro x ⟨args, keywords, ⟨⟩⟩
    · exact fun x => rfl
  | loadLocal =>
    refine safe_localName.bind fun name => (safe_pushNew ?_ ?_ ?_).imp fun _ _ h => h.contained
    · rintro p ⟨⟩
    · rintro ⟨args, keywords, ⟨⟩⟩
    · exact fun w hw => hw
  | loadGlobal =>
    refine (safe_get fun s h => h.contained).bind fun s =>
      ((safe_load _ _ ?_ ?_ ?_).weaken fun s h => h.2).imp fun _ _ h => h.contained
    · rintro x p ⟨⟩
    · rintro x ⟨args, keywords, ⟨⟩⟩
    · exact fun x => rfl
  | storeLocal => exact safe_storeLocal
  | unary o => exact safe_unary (Opcode.operator_ne_iterNext (.inl he))
  | binary o => exact safe_binary (Opcode.operator_ne_iterNext (.inr he))
  | compare => exact safe_compare
  | call => exact safe_call
  | forLoop => exact absurd rfl hfor
  | branch pops jumpsOn => exact safe_branch pops jumpsOn
  | jump => exact safe_jump
  | ret => exact safe_ret

/-! ## Loops -/

/-- A block that has checked an iterator is left, and its body begins with the next element. -/
theorem always_leaveHeader {s : Lifter} {w u : ValueId} {body exit : BlockId}
    (h : s.Holding c [some w, some u]) (hbody : body < s.graph.blocks.size)
    (hexit : exit < s.graph.blocks.size)
    (hcheck : (s.graph.definition w).expr = some (.call (some (.operator .iterValid)) [some u] []))
    (hlast : (c.blockRun (s.graph.offset s.current)).getLast? = some i)
    (he : i.op.effect? = some .forLoop) (hnext : i.next = s.graph.offset body)
    (hempty : (s.graph.block body).body = #[]) :
    Always (Contained c)
      (do
        Lift.branchTo (some w) body exit
        pushIn body (.call (some (.operator .iterNext)) [some u] []) : Passing Unit) s := by
  have hleave := Lift.contained_after_branchTo h hbody hexit List.mem_cons_self
  refine (always_stride hleave).bind fun _ s' hok hcontained => ?_
  have hterm := (Lift.branchTo_ok hok).terminate_eq
  have htargets : ∀ n ∈ (Terminator.branch (some w) body exit).targets,
      n < s.graph.blocks.size := by
    simp [Terminator.targets, hbody, hexit]
  obtain ⟨w', hw', hw⟩ := h.held (some w) (by simp)
  obtain ⟨u', hu', hu⟩ := h.held (some u) (by simp)
  cases hw'
  cases hu'
  have hheads := Graph.heads_of_terminate h.current_lt hbody hexit hu hw hcheck hlast he hnext hterm
  have hempty' : (s'.graph.block body).body = #[] := by
    rw [(Graph.stays_terminate h.current_lt htargets hterm body).2.2.1, hempty]
  have hlt : body < s'.graph.blocks.size := by
    rw [(Graph.terminate_frame hterm).2.2]
    exact hbody
  exact always_pushIn hlt (hcontained.defineNext hlt hempty' hheads s'.line)

/-- The header of a loop leaves its iterator on the stack, for the body to take the next element. -/
theorem always_forLoop {done : List Int} {b : BlockId} {o : Int} {run : List Instruction}
    {s : Lifter} (hc : c.Sound) (h : Walking c done b o run s) (hrun : c.blockRun o = run ++ [i])
    (he : i.op.effect? = some .forLoop) (hholding : s.Holding c []) :
    Always (Contained c) (forLoop i) s := by
  have hlast : (c.blockRun o).getLast? = some i := by rw [hrun]; simp
  obtain ⟨htarget, hnext⟩ := h.starts_of_forks hc hlast (Opcode.flow_eq_of_effect? he)
  -- the iterator is looked at and the blocks are asked for
  obtain ⟨halways₁, hok₁⟩ := safe_peek s hholding
  refine halways₁.bind fun it s₁ hpeek _ => ?_
  obtain ⟨hseeing₁, -⟩ := h.peek hpeek
  obtain ⟨halways₂, hok₂⟩ := safe_ensure [] i.target s₁ ⟨hok₁ it s₁ hpeek, by simp⟩
  refine halways₂.bind fun exit s₂ hexit _ => ?_
  obtain ⟨hseeing₂, -, -⟩ := hseeing₁.ensure hc htarget hexit
  obtain ⟨halways₃, hok₃⟩ := safe_ensure [exit] i.next s₂ (hok₂ exit s₂ hexit)
  refine halways₃.bind fun body s₃ hbody _ => ?_
  obtain ⟨hseeing₃, -, hensured₃⟩ := hseeing₂.ensure hc hnext hbody
  obtain ⟨hholding₃, hsizes⟩ := hok₃ body s₃ hbody
  refine (always_stride hholding₃.contained).bind fun _ _ hget _ => ?_
  cases hget
  refine (always_orFault _ hholding₃.contained).bind fun walked s₃' hwalked _ => ?_
  obtain ⟨hcontains, rfl⟩ := Lift.orFault_ok hwalked
  cases walked with
  | true => exact (always_stride hholding₃.contained).bind fun _ _ hstop _ => by cases hstop
  | false =>
    -- a body that was not walked has no values yet
    rw [hensured₃.offset_eq] at hcontains
    have hnotwalked := BitSet.not_holds_of_contains hseeing₃.progress.marks.processed_base
      (hc.inRange_of_starts hnext) hcontains
    obtain ⟨hne, hempty⟩ := hseeing₃.progress.body_eq_empty hc (hseeing₃.offset_eq.symm ▸ hlast)
      hensured₃.mem_live hensured₃.offset_eq (hensured₃.offset_eq.symm ▸ hnotwalked)
    -- the check of the iterator is emitted and popped again
    obtain ⟨halways₄, hok₄⟩ :=
      safe_operate .iterValid (by decide) [it] (fun _ hw => hw) s₃' hholding₃
    refine halways₄.bind fun _ s₄ hnew _ => ?_
    obtain ⟨halways₅, hok₅⟩ := safe_pop s₄ (hok₄ _ s₄ hnew)
    refine halways₅.bind fun cond s₅ hpop _ => ?_
    have hholding₅ := hok₅ cond s₅ hpop
    obtain ⟨u, rfl, -⟩ := hholding₃.held it (by simp)
    rw [result_pushNew] at hnew
    obtain ⟨w, rfl, hcheck⟩ := Lift.pop_pushNew hholding₃.current_lt hnew hpop
    obtain ⟨hending, -, hwork⟩ := hseeing₃.check hrun he hnew hpop body exit
    refine always_leaveHeader hholding₅ ?_ ?_ hcheck ?_ he ?_ ?_
    · exact hwork.size_eq ▸ hsizes body (by simp)
    · exact hwork.size_eq ▸ hsizes exit (by simp)
    · rw [hending.current_eq, hending.offset_eq]
      exact hlast
    · exact ((hwork.offset_eq body).trans hensured₃.offset_eq).symm
    · rw [hwork.others body hne, hempty]

/-! ## Walking -/

section

variable {done : List Int} {b : BlockId} {o p : Int} {run : List Instruction} {s : Lifter}

/-- An instruction that ends a run may be the header of a loop. -/
theorem always_perform {e : Effect} {s₁ : Lifter} (hc : c.Sound) (h : Walking c done b o run s)
    (hbegins : Lift.Begins i s s₁) (hrun : i.op.flow ≠ .goesOn → c.blockRun o = run ++ [i])
    (he : i.op.effect? = some e) (hcontained : s.Contained c) :
    Always (Contained c) (perform i e) s₁ := by
  have h₁ := (h.begins hbegins).1
  have hholding : s₁.Holding c [] := by
    refine ⟨?_, h₁.current_eq ▸ h₁.lt_size, fun v hv => absurd hv List.not_mem_nil⟩
    rw [Lifter.Contained, hbegins.graph_eq]
    exact hcontained
  by_cases hfor : e = .forLoop
  · subst hfor
    refine always_forLoop hc h₁ (hrun ?_) he hholding
    rw [Opcode.flow_eq_of_effect? he]
    rintro ⟨⟩
  · exact (safe_perform he hfor s₁ hholding).1

/-- What comes before the effect of an instruction leaves the graph alone. -/
theorem always_step (hc : c.Sound) (h : Walking c done b o run s)
    (hrun : c.blockRun o = run ++ c.blockRun p) (hi : c.at? p = some i)
    (hcontained : s.Contained c) : Always (Contained c) (step i) s := by
  refine (always_stride hcontained).bind fun _ s₁ hline _ => ?_
  cases hline
  refine (always_stride hcontained).bind fun _ s₂ hget _ => ?_
  cases hget
  refine (always_stride hcontained).bind fun _ s₃ htell _ => ?_
  cases htell
  cases he : i.op.effect? with
  | none => exact always_stride hcontained
  | some e =>
    refine always_perform hc h ⟨rfl, rfl, rfl, rfl, rfl, rfl, rfl, Lifter.steps_tell _ _⟩ ?_ he
      hcontained
    intro hflow
    rw [hrun, Code.blockRun_eq _ p, hc.runFrom_eq hi c.isLabel, if_neg (hflow ·.1)]

/-- Walking on in a block. -/
theorem always_walkFrom (hc : c.Sound) {fuel : Nat} (h : Walking c done b o run s)
    (hrun : c.blockRun o = run ++ c.blockRun p) (hcontained : s.Contained c) :
    Always (Contained c) (walkFrom c.at? p fuel) s := by
  -- each step moves an instruction from what is left of the run of the block to what was walked
  induction fuel generalizing p run s with
  | zero => exact always_stride hcontained
  | succ fuel ih =>
    unfold walkFrom
    cases hi : c.at? p with
    | none =>
      refine (always_stride hcontained).bind fun _ s₁ hget _ => ?_
      cases hget
      exact always_stride hcontained
    | some i =>
      refine (always_step hc h hrun hi hcontained).bind fun _ s₁ hstep hcontained₁ => ?_
      rw [result_step] at hstep
      refine (always_stride hcontained₁).bind fun _ s₂ hget _ => ?_
      cases hget
      obtain ⟨-, -, hcurrent, ⟨hflow, hwalking, -⟩ | ⟨-, -, -, -, hterminated⟩⟩ :=
        Lift.step_walking hc h hrun hi hstep
      · -- the instruction goes on, into the next block or to the next instruction
        rw [hcurrent, hwalking.isTerminated_eq, if_neg Bool.false_ne_true]
        rcases Lift.next_cases hc hwalking hi hflow with ⟨a, hfind, -, -⟩ | ⟨hfind, -, hrunp⟩
        · obtain ⟨ha, -⟩ := Graph.offset_of_find?_eq_some hfind
          have hholding : s₁.Holding c [] :=
            ⟨hcontained₁, hcurrent ▸ hwalking.lt_size, fun v hv => absurd hv List.not_mem_nil⟩
          rw [hfind]
          exact always_stride
            (Lift.contained_after_jumpTo hholding (hcontained₁.regular.lt_size a ha))
        · rw [hfind]
          exact ih hwalking (by rw [hrun, hrunp]; simp) hcontained₁
      · rw [hcurrent, if_pos hterminated]
        exact always_pure hcontained₁ ()

/-- Walking a block from its beginning. -/
theorem always_walkOn (hc : c.Sound) (h : Walking c done b o [] s) (hcontained : s.Contained c) :
    Always (Contained c) (walkOn c.at? o b) s := by
  refine (always_stride hcontained).bind fun _ s₁ hget _ => ?_
  cases hget
  refine (always_walkFrom hc h (by simp) hcontained).bind fun _ s₂ _ hcontained₂ => ?_
  refine (always_stride hcontained₂).bind fun _ s₃ hget _ => ?_
  cases hget
  exact always_stride hcontained₂

/-- The arguments of the function have no operands. -/
theorem safe_pushArguments :
    Safe (Contained c) (Holding c []) pushArguments fun _ => Holding c [] := by
  refine (safe_get fun s h => h.contained).bind fun s => ?_
  have hline : Safe (Contained c) (fun s' => s = s' ∧ Holding c [] s')
      (modify fun s' => { s' with line := Number.wrap (s.code.firstLine - 1) } : Passing Unit)
      fun _ => Holding c [] := by
    refine safe_stride (fun s' h => h.2.contained) fun s' h _ s₁ hok => ?_
    cases hok
    exact h.2.of_eq rfl rfl
  refine hline.bind fun _ => safe_forM (fun s h => h.contained) fun a _ => safe_pushNew ?_ ?_ ?_
  · rintro p ⟨⟩
  · rintro ⟨args, keywords, ⟨⟩⟩
  · exact fun w hw => hw

/-- The arguments are pushed at the entry, and no instruction was stepped yet. -/
theorem always_enter (hc : c.Sound) (h : Progress c done (some b) s) (hcurrent : s.current = b)
    (hoffset : s.graph.offset b = o) (hunwalked : s.graph.Unwalked c done b)
    (hcontained : s.Contained c) :
    Always (Contained c)
      (do
        if o = 0 then pushArguments
        walkOn c.at? o b : Passing Unit) s := by
  have henter : ∀ s', (if o = 0 then Lift.pushArguments else pure ()) s = .ok () s' →
      Walking c done b o [] s' := fun s' hok =>
    (Lift.enter_walking hc h hcurrent hoffset hunwalked hok).1
  by_cases hzero : o = 0
  · rw [if_pos hzero]
    rw [if_pos hzero] at henter
    have hlt := hcontained.regular.lt_size b (h.divided.now_live b rfl)
    refine (safe_pushArguments s ⟨hcontained, hcurrent ▸ hlt, by simp⟩).1.bind
      fun _ s' hargs hcontained' => ?_
    rw [result_pushArguments] at hargs
    exact always_walkOn hc (henter s' hargs) hcontained'
  · rw [if_neg hzero]
    rw [if_neg hzero] at henter
    exact always_walkOn hc (henter s rfl) hcontained

/-- Walking a block to come. -/
theorem always_walk (hc : c.Sound) (h : Progress c done none s) (ho : s.pending.Holds o)
    (hnot : ¬ s.processed.Holds o) (hcontained : s.Contained c) :
    Always (Contained c) (walk c.at? o)
      { s with
        pending := s.pending.clearBit o.toNat
        processed := s.processed.setBit o.toNat } := by
  refine (always_stride (hcontained.ensure o)).bind fun b s₁ hensure hcontained₁ => ?_
  obtain ⟨hprogress, -, -, hoffset, hunwalked⟩ := h.begin hc ho hnot hensure
  refine (always_stride hcontained₁).bind fun _ s₂ hset _ => ?_
  cases hset
  refine (always_stride hcontained₁).bind fun _ s₃ htell _ => ?_
  cases htell
  exact always_enter hc (hprogress.of_eq rfl rfl rfl rfl) rfl hoffset hunwalked hcontained₁

/-- Walking blocks until none is left to be walked. -/
theorem always_traverse (hc : c.Sound) {fuel : Nat} (h : Progress c done none s)
    (hsteps : s.steps = c.stepsOf done) (hcontained : s.Contained c) :
    Always (Contained c) (traverse c.at? fuel) s := by
  -- `done` grows by a block at a time; an offset that was walked before is only dropped
  induction fuel generalizing done s with
  | zero => exact always_stride hcontained
  | succ fuel ih =>
    refine (always_stride hcontained).bind fun _ s₁ hget _ => ?_
    cases hget
    have hmarks : Marks c done s.pending s.processed := by simpa using h.marks
    cases hfirst : s.pending.first? with
    | none => exact always_pure hcontained ()
    | some o =>
      have ho := (BitSet.holds_of_first?_eq_some hmarks.pending_base
        (fun p hp => hc.inRange_of_starts (hmarks.starts p hp)) hfirst).1
      have hrange := hc.inRange_of_starts (hmarks.starts o ho)
      refine (always_orFault _ hcontained).bind fun pending s₁ herase _ => ?_
      obtain ⟨herase, rfl⟩ := Lift.orFault_ok herase
      rw [BitSet.erase_of_inRange hmarks.pending_base hrange] at herase
      cases herase
      refine (always_stride hcontained).bind fun _ s₂ hset hcontained₂ => ?_
      cases hset
      refine (always_orFault _ hcontained₂).bind fun walked s₂ hwalked _ => ?_
      obtain ⟨hcontains, rfl⟩ := Lift.orFault_ok hwalked
      cases walked with
      | true =>
        rw [BitSet.contains_of_inRange hmarks.processed_base hrange] at hcontains
        exact ih (h.drop ⟨hrange.1, Except.ok.inj hcontains⟩) hsteps hcontained
      | false =>
        have hnot := BitSet.not_holds_of_contains hmarks.processed_base hrange hcontains
        rw [BitSet.insert_of_inRange hmarks.processed_base hrange]
        refine (always_stride hcontained).bind fun _ s₂ hset _ => ?_
        cases hset
        refine (always_walk hc h ho hnot hcontained).bind fun _ s' hwalk hcontained' => ?_
        rw [result_walk] at hwalk
        obtain ⟨hprogress, hsteps', -, -⟩ := Lift.walk_progress hc h ho hnot hsteps rfl hwalk
        exact ih hprogress hsteps' hcontained'

end

end Passing

/-! ## Passes -/

namespace PhiCompletion

open Passage

variable {c : Code} {v : ValueId} {preds : List BlockId} {s : State}

/-- Whether the operands keep to their blocks. -/
def State.Contained (c : Code) (s : State) : Prop := s.graph.Contained c

/-- What holds while a phi of a block with these predecessors is completed. -/
structure Serves (c : Code) (v : ValueId) (preds : List BlockId) (g : Graph) : Prop where
  contained : g.Contained c
  isPhi : ∃ p, (g.definition v).phi? = some p
  preds_eq : (g.block (g.definition v).block).preds = preds

/-- What a predecessor is left with is one of its own values. -/
theorem Serves.exitSlot {g : Graph} {b : BlockId} (h : Serves c v preds g) (hb : b ∈ preds)
    (line : Int) (depth : Nat) :
    Serves c v preds (g.exitSlot b line depth).2 ∧
      (g.exitSlot b line depth).2.Draws v ⟨b, (g.exitSlot b line depth).1.1⟩ := by
  obtain ⟨p, hp⟩ := h.isPhi
  have hw := g.worksIn_exitSlot b line depth
  have hdef := hw.definition_eq v (Graph.lt_of_phi?_eq_some hp)
  have hlt := h.contained.regular.lt_size_of_mem_preds (h.preds_eq ▸ hb)
  obtain ⟨hcontained, hvalue⟩ := h.contained.exitSlot hlt line depth
  have hpreds : ((g.exitSlot b line depth).2.block
      ((g.exitSlot b line depth).2.definition v).block).preds = preds := by
    rw [hdef, hw.preds_eq, h.preds_eq]
  exact ⟨⟨hcontained, ⟨p, by rw [hdef, hp]⟩, hpreds⟩, hpreds ▸ hb, hvalue⟩

/-- A value of a predecessor may flow into the phi. -/
theorem Serves.modifyPhi {g : Graph} {f : Phi → Phi} (h : Serves c v preds g)
    (hslot : ∀ p, (f p).slot = p.slot)
    (hf : ∀ p, ∀ i ∈ (f p).incomings, i ∈ p.incomings ∨ g.Draws v i) :
    Serves c v preds (g.modifyPhi v f) := by
  obtain ⟨p, hp⟩ := h.isPhi
  refine ⟨h.contained.modifyPhi hp (hslot p) (hf p), ⟨f p, ?_⟩, ?_⟩
  · rw [Graph.definition_modifyPhi_self hp]
    rfl
  · rw [(g.place_modifyPhi v f v).1]
    exact h.preds_eq

/-- A phi gets its value from a predecessor, which may have to be asked for it. -/
theorem safe_feed {b : BlockId} (hb : b ∈ preds) (slot : Int) :
    Safe (State.Contained c) (fun s => Serves c v preds s.graph) (feedPassing v slot b)
      fun _ s => Serves c v preds s.graph := by
  have hfed : ∀ s : State, Serves c v preds s.graph →
      Serves c v preds (after (feed v slot b s)).graph := by
    intro s h
    simp only [feed]
    unfold Graph.exitSlotAt
    by_cases hneg : slot < 0
    · rw [if_pos hneg]
      exact h
    · rw [if_neg hneg]
      obtain ⟨hasked, hdraws⟩ := h.exitSlot hb (s.graph.lineOf b) slot.toNat
      dsimp only
      split
      · exact hasked
      · refine hasked.modifyPhi (fun _ => rfl) fun p i hi => ?_
        rcases List.mem_append.1 hi with hi | hi
        · exact .inl hi
        · exact .inr (List.mem_singleton.1 hi ▸ hdraws)
  intro s h
  -- in between, the predecessor has been asked for the value and the phi has not got it
  refine ⟨always_via (fun s' hs' => ?_) (hfed s h).contained, fun _ s' hok => ?_⟩
  · unfold Graph.exitSlotAt at hs'
    by_cases hneg : slot < 0
    · rw [if_pos hneg] at hs'
      cases hs'
    · rw [if_neg hneg] at hs'
      obtain ⟨r, hr, rfl⟩ := List.mem_map.1 hs'
      cases List.mem_singleton.1 hr
      exact (h.exitSlot hb (s.graph.lineOf b) slot.toNat).1.contained
  · have hafter := hfed s h
    rw [result_feedPassing] at hok
    rwa [hok] at hafter

/-- Completing a phi asks only predecessors of its block. -/
theorem always_complete {p : Phi} (h : s.Contained c)
    (hp : (s.graph.definition v).phi? = some p) (maxDepth : Int) :
    Always (State.Contained c) (completePassing maxDepth v p) s := by
  refine (always_stride h).bind fun _ s₁ hget _ => ?_
  cases hget
  dsimp only
  split
  · exact (always_stride h).bind fun _ _ hstop _ => by cases hstop
  split
  · exact (always_stride h).bind fun _ _ hstop _ => by cases hstop
  have hfed := safe_forM (I := State.Contained c) (fun s hs => hs.contained)
    (fun b hb => safe_feed (c := c) (v := v) hb p.slot) s ⟨h, ⟨p, hp⟩, rfl⟩
  refine hfed.1.bind fun _ s' hok _ => always_stride ?_
  have hmarked : Serves c v _ (s'.graph.markComplete v) :=
    (hfed.2 _ s' hok).modifyPhi (fun _ => rfl) fun _ i hi => .inl hi
  exact hmarked.contained

/-- Completing the phis of the queue, wherever it stops. -/
theorem always_drain (maxDepth : Int) (fuel : Nat) (h : s.Contained c) :
    Always (State.Contained c) (drainPassing maxDepth fuel) s := by
  induction fuel generalizing s with
  | zero => exact always_stride h
  | succ fuel ih =>
    -- what the queue holds does not matter, as only phis are completed
    refine (always_stride h).bind fun _ s₁ hget _ => ?_
    cases hget
    cases s.queue.next? with
    | none => exact always_pure h ()
    | some first =>
      refine (always_stride h).bind fun _ s₁ hset h₁ => ?_
      cases hset
      cases hp : (s.graph.definition first.1).phi? with
      | none => exact (always_stride h₁).bind fun _ _ hstop _ => by cases hstop
      | some p =>
        refine Always.bind ?_ fun _ s' _ h' => ih h'
        dsimp only [Option.elim_some]
        split
        · exact always_pure h₁ ()
        · exact always_complete h₁ hp maxDepth

end PhiCompletion

namespace Passing

open Passage Lifter

variable {c : Code} {s : Lifter}

/-- Removing blocks keeps operands in their blocks, all along. -/
theorem contained_of_mem_discards {dead : List BlockId} {g g' : Graph} (h : g.Contained c)
    (hmem : g' ∈ g.discards dead) : g'.Contained c := by
  induction dead generalizing g with
  | nil => cases hmem
  | cons b dead ih =>
    rcases List.mem_cons.1 hmem with rfl | hmem
    · exact h.discard b
    · exact ih (h.discard b) hmem

/-- The dead blocks are removed one by one. -/
theorem always_findDominators (h : s.Contained c) : Always (Contained c) findDominators s := by
  refine always_via (fun s' hs' => ?_) (Lift.contained_after_findDominators h)
  split at hs'
  · cases hs'
  split at hs'
  · cases hs'
  · obtain ⟨graph, hgraph, rfl⟩ := List.mem_map.1 hs'
    exact contained_of_mem_discards h hgraph

/-- What holds while phis are completed holds in the lifter. -/
theorem always_completePhis (h : s.Contained c) : Always (Contained c) completePhis s := by
  have hdrain := PhiCompletion.always_drain (Lift.depthLimit s.code)
    (PhiCompletion.fuelFor s.graph (Lift.depthLimit s.code))
    (s := ⟨s.graph, { front := PhiCompletion.allPhis s.graph }, #[]⟩) h
  refine always_via (fun s' hs' => ?_) ?_
  · obtain ⟨r, hr, rfl⟩ := List.mem_map.1 hs'
    exact hdrain.1 r hr
  · have hafter := hdrain.2
    rw [PhiCompletion.result_drainPassing, ← Graph.completePhis] at hafter
    rw [Lifter.Contained, Lift.graph_after_completePhis]
    exact hafter

theorem always_finish (h : s.Contained c) : Always (Contained c) (stride Lift.finish) s := by
  refine always_stride ?_
  rw [Lifter.Contained, Lift.graph_after_finish]
  exact h

theorem always_checkSignature (signature : Signature) (h : s.Contained c) :
    Always (Contained c) (stride (Lift.checkSignature signature)) s := by
  refine always_stride ?_
  rw [Lift.after_checkSignature]
  exact h

/-- A lift keeps operands in their blocks, wherever it stops. -/
theorem always_all {options : LiftOptions} (h : IsOpened c options s) (hc : c.Sound)
    (hcontained : s.Contained c) : Always (Contained c) all s := by
  refine (always_stride hcontained).bind fun _ s₁ hget _ => ?_
  cases hget
  dsimp only
  split
  · exact (always_stride hcontained).bind fun _ _ hstop _ => by cases hstop
  refine (always_stride hcontained).bind fun _ s₁ hset hcontained₁ => ?_
  cases hset
  refine (always_checkSignature _ hcontained₁).bind fun _ s₂ hcheck _ => ?_
  rcases Lift.checkSignature_cases s.code.signature { s with started := true } with
    ⟨e, hcases⟩ | hcases
  · cases hcheck.symm.trans hcases
  cases hcheck.symm.trans hcases
  simp only [Code.getElem?_index]
  obtain rfl := h.code_eq
  have hstarted := h.start
  refine (always_traverse hc hstarted.progress.1 hstarted.steps_eq hcontained₁).bind
    fun _ s₃ _ hcontained₃ => ?_
  refine (always_findDominators hcontained₃).bind fun _ s₄ _ hcontained₄ => ?_
  exact (always_completePhis hcontained₄).bind fun _ s₅ _ hcontained₅ => always_finish hcontained₅

end Passing

/-! ## Every state of a lift -/

namespace Lifter

variable {l : Listing} {c : Code}

/-- A lift starts with blocks that have no values. -/
theorem contained_ofCode (c : Code) (options : LiftOptions) : (ofCode c options).Contained c :=
  (Graph.Contained.empty c).foldl_ensure c.labels

/-- A whole lift keeps operands in their blocks. -/
theorem always_passage (hc : c.Sound) (options : LiftOptions) :
    Passage.Always (Contained c) passage (ofCode c options) := by
  have hstart := contained_ofCode c options
  obtain ⟨hstates, hlast⟩ :=
    Passing.always_all (isOpened_ofCode c options).opening hc hstart
  have hend : Contained c (after (passage.result (ofCode c options))) := by
    unfold Contained passage Passage.result
    rw [graph_after_close]
    exact hlast
  refine ⟨fun s hs => ?_, hend⟩
  rcases List.mem_cons.1 hs with rfl | hs
  · exact hstart
  rcases List.mem_append.1 hs with hs | hs
  · rcases List.mem_cons.1 hs with rfl | hs
    · exact hstart
    · exact hstates s hs
  · rw [List.mem_singleton.1 hs]
    exact hend

/-- **Operands stay in their blocks.**  A lift of a code that was built goes only through graphs in
which operands are local, and leaves such a graph whether or not it succeeds.  No graph is left out:
the states that are shown lead from the first to the last state of the lift, with one change to the
graph at a time. -/
theorem operandsLocal_of_lift (hsize : l.IsAddressable) (hbuild : l.build = .ok c)
    (options : LiftOptions) :
    passage.result (ofCode c options) = (ofCode c options).lift ∧
      Leads OneChange (ofCode c options) (passage.states (ofCode c options))
        (after (ofCode c options).lift) ∧
      (∀ s ∈ passage.states (ofCode c options), s.graph.OperandsLocal c) ∧
      (after (ofCode c options).lift).graph.OperandsLocal c := by
  obtain ⟨hstates, hend⟩ := always_passage (Listing.sound_of_build hsize hbuild) options
  have hleads := gapless_passage (ofCode c options)
  rw [Passage.Gapless, result_passage] at hleads
  rw [result_passage] at hend
  exact ⟨result_passage _, hleads, fun s hs => (hstates s hs).operandsLocal, hend.operandsLocal⟩

/-- The body of this loop begins with the next element of an iterator of its header. -/
theorem operandsLocal_loop : Listing.loop.IsAddressable ∧ ∃ c s a w, Listing.loop.build = .ok c ∧
    Leads OneChange (ofCode c {}) (passage.states (ofCode c {})) s ∧
    (∀ s' ∈ passage.states (ofCode c {}), s'.graph.OperandsLocal c) ∧
    (ofCode c {}).lift = .ok () s ∧ s.graph.OperandsLocal c ∧ s.graph.Heads c a 4 w := by
  have hlifts : Listing.loop.lifts (fun s => ∃ u ∈ (s.graph.block 4).code,
      ∃ w ∈ (s.graph.block 0).code, (s.graph.definition u).expr =
        some (.call (some (.operator .iterNext)) [some w] [])) = true := by
    simp only [Listing.lifts, Lifter.lift, Lift.all, Code.getElem?_index]
    decide +kernel
  obtain ⟨c, s, hbuild, hlift, hcheck⟩ := Listing.exists_of_lifts hlifts
  have hsize : Listing.loop.IsAddressable := by decide +kernel
  obtain ⟨-, hleads, hstates, hend⟩ := operandsLocal_of_lift hsize hbuild {}
  rw [hlift] at hleads hend
  obtain ⟨u, hu, w, -, hexpr⟩ := of_decide_eq_true hcheck
  obtain ⟨n, hn⟩ := List.mem_iff_getElem?.1 hu
  obtain ⟨-, -, a, w', -, hheads⟩ := hend.next 4 n u _ _ hn hexpr
  exact ⟨hsize, c, s, a, w', hbuild, hleads, hstates, hlift, hend, hheads⟩

end Lifter

end StackLift
