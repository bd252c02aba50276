/-
# Functions that are refused for a flaw

A walk of a block steps its instructions up to the first flaw.  When all blocks were walked control
gets to no flaw, so a function is refused by the walks if and only if control reaches one.

* `Code.Clears` : there is no flaw in the rest of a block;
* `Lift.walkFrom_flaw` : a walk clears a block, or refuses the function for a flaw;
* `Lift.traverse_flaw` : so do all walks together;
* `Lifter.lift_refuses_iff` : a function is refused if and only if a flaw is reached.
-/
import StackLift.Proofs.Flaws

namespace StackLift

/-! ## Blocks without flaws -/

/-- The instruction that an error is about. -/
def LiftError.instruction? : LiftError → Option Instruction
  | .unsupported i | .step i _ => some i
  | _ => none

namespace Code

/-- Whether there is no flaw from a place up to the end of the block. -/
inductive Clears (c : Code) : Place → Prop
  | last {p : Place} {i : Instruction} (hi : c.at? p.offset = some i)
      (hsound : ∀ err, ¬ c.Flaw p err) (hend : i.op.flow ≠ .goesOn ∨ c.isLabel i.next = true) :
      Clears c p
  | next {p : Place} {i : Instruction} {e : Effect} (hi : c.at? p.offset = some i)
      (he : i.op.effect? = some e) (hsound : ∀ err, ¬ c.Flaw p err) (hflow : i.op.flow = .goesOn)
      (hlabel : c.isLabel i.next = false)
      (h : Clears c { block := p.block, offset := i.next, stack := c.after i p.stack e }) :
      Clears c p

/-- Whether a function was refused for a flaw that control reaches, on the line of the flaw. -/
def Blames (c : Code) (err : LiftError) (s : Lifter) : Prop :=
  ∃ p, c.Visits p ∧ c.Flaw p err ∧
    ∀ i, err.instruction? = some i → i.offset = p.offset ∧ s.line = i.line

variable {c : Code} {p : Place}

/-- An error about an instruction is about the one where control is. -/
theorem Flaw.at?_eq {err : LiftError} {i : Instruction} (h : c.Flaw p err)
    (hi : err.instruction? = some i) : c.at? p.offset = some i := by
  cases h with
  | missing => cases hi
  | unsupported hj _ =>
    cases hi
    exact hj
  | unfit hj _ _ =>
    cases hi
    exact hj

theorem Clears.sound (h : c.Clears p) (err : LiftError) : ¬ c.Flaw p err := by
  cases h with
  | last _ hsound _ => exact hsound err
  | next _ _ hsound _ _ _ => exact hsound err

/-- The run of a block goes on behind an instruction, or ends with it. -/
theorem Sound.blockRun_cases (hc : c.Sound) {o : Int} {i : Instruction} (hi : c.at? o = some i) :
    i.op.flow = .goesOn ∧ c.isLabel i.next = false ∧ c.blockRun o = i :: c.blockRun i.next ∨
      (i.op.flow ≠ .goesOn ∨ c.isLabel i.next = true) ∧ c.blockRun o = [i] := by
  rw [blockRun_eq, hc.runFrom_eq hi]
  by_cases hgoes : i.op.flow = .goesOn
  · cases hlabel : c.isLabel i.next with
    | false => exact .inl ⟨hgoes, rfl, if_pos ⟨hgoes, rfl⟩⟩
    | true => exact .inr ⟨.inr rfl, if_neg (by simp)⟩
  · exact .inr ⟨.inl hgoes, if_neg (hgoes ·.1)⟩

/-- Control gets from a block without flaws to the blocks behind its last instruction. -/
theorem Clears.enters (h : c.Clears p) (hc : c.Sound) (hvisits : c.Visits p) {i : Instruction}
    (hlast : (c.blockRun p.offset).getLast? = some i) {o : Int} (ho : o ∈ i.successors) :
    c.Visits (.enter o) := by
  induction h with
  | @last p j hj hsound hend =>
    rcases hc.blockRun_cases hj with ⟨hflow, hlabel, -⟩ | ⟨-, hrun⟩
    · simp [hflow, hlabel] at hend
    · rw [hrun] at hlast
      cases hlast
      exact .enter hvisits hj hsound hend ho
  | @next p j e hj he hsound hflow hlabel hclears ih =>
    refine ih (.next hvisits hj he hsound hflow hlabel) ?_
    rcases hc.blockRun_cases hj with ⟨-, -, hrun⟩ | ⟨hend, -⟩
    · -- the run goes on, as there is an instruction behind this one
      obtain ⟨k, hk⟩ : ∃ k, c.at? j.next = some k := by
        cases hclears with
        | last hk _ _ => exact ⟨_, hk⟩
        | next hk _ _ _ _ _ => exact ⟨_, hk⟩
      obtain ⟨rest, hnext⟩ : ∃ rest, c.blockRun j.next = k :: rest := by
        rcases hc.blockRun_cases hk with ⟨-, -, hnext⟩ | ⟨-, hnext⟩
        · exact ⟨_, hnext⟩
        · exact ⟨_, hnext⟩
      rw [hrun, hnext, List.getLast?_cons_cons] at hlast
      rw [hnext]
      exact hlast
    · simp [hflow, hlabel] at hend

end Code

/-! ## Walking -/

namespace Lift

open Lifter

variable {c : Code} {s s' : Lifter} {i : Instruction} {done : List Int} {b : BlockId} {o : Int}
  {run : List Instruction} {p : Place}

/-- Stepping an instruction where control is: it has no flaw, or the function is refused for one. -/
theorem step_flaw (hc : c.Sound) (h : Walking c done b o run s) (hknows : s.Knows c p.stack)
    (hrun : c.blockRun o = run ++ c.blockRun p.offset) (hi : c.at? p.offset = some i) :
    (∃ e s', i.op.effect? = some e ∧ step i s = .ok () s' ∧ (∀ err, ¬ c.Flaw p err) ∧
      (i.op.flow = .goesOn → s'.Knows c (c.after i p.stack e))) ∨
    (∃ err s', step i s = .error (.error err) s' ∧ c.Flaw p err ∧ s'.line = i.line) ∨
    ∃ f s', step i s = .error (.fault f) s' := by
  obtain ⟨hnone, s', hstop, hline⟩ | ⟨e, s₁, he, hbegins, hstep⟩ := step_cases i s
  · exact .inr (.inl ⟨_, s', hstop, .unsupported hi hnone, hline⟩)
  obtain ⟨hwalking, -⟩ := h.begins hbegins
  have hknows₁ := hknows.of_eq hbegins.code_eq hbegins.graph_eq hbegins.current_eq
  have hflow := Opcode.flow_eq_of_effect? he
  rw [hstep]
  by_cases hgoes : e.flow = .goesOn
  · rcases runs_perform hgoes hknows₁ with
      ⟨u, s', hok, -, hknows', hfit⟩ | ⟨err, s', hstop, hline, cause, hunfit, rfl⟩
    · exact .inl ⟨e, s', he, hok, not_flaw hi he hfit, fun _ => hknows'⟩
    · exact .inr (.inl ⟨_, s', hstop, .unfit hi he hunfit, hline.trans hbegins.line_eq⟩)
  · cases hperform : perform i e s₁ with
    | ok u s' =>
      refine .inl ⟨e, s', he, rfl, not_flaw hi he (not_unfit_of_flow hgoes), fun hyes => ?_⟩
      exact absurd (hflow ▸ hyes) hgoes
    | error stop s' =>
      -- it is the last of its block, and only a fault keeps it from leaving
      have hend : c.blockRun o = run ++ [i] := by
        rw [hrun, Code.blockRun_eq _ p.offset, hc.runFrom_eq hi c.isLabel,
          if_neg fun hyes => hgoes (hflow ▸ hyes.1)]
      obtain ⟨-, -, rfl⟩ := hwalking.leave_error hc hend he hgoes hperform
      exact .inr (.inr ⟨_, s', rfl⟩)

/-- Walking on from where control is clears the block, or the function is refused for a flaw. -/
theorem walkFrom_flaw (hc : c.Sound) {fuel : Nat} (h : Walking c done b o run s)
    (hknows : s.Knows c p.stack) (hblock : p.block = o)
    (hrun : c.blockRun o = run ++ c.blockRun p.offset) (hvisits : c.Visits p) :
    (∀ s', walkFrom c.at? p.offset fuel s = .ok () s' → c.Clears p) ∧
      ∀ err s', walkFrom c.at? p.offset fuel s = .error (.error err) s' → c.Blames err s' := by
  -- along the run: what is known of the stack is the invariant, and control gets to each place
  induction fuel generalizing p run s with
  | zero => exact ⟨by rintro s' ⟨⟩, by rintro err s' ⟨⟩⟩
  | succ fuel ih =>
    rw [walkFrom]
    cases hi : c.at? p.offset with
    | none =>
      refine ⟨by rintro s' ⟨⟩, fun err s' hstop => ?_⟩
      have hflaw := Code.Flaw.missing hi
      cases hstop
      rw [h.current_eq, h.offset_eq, ← hblock]
      exact ⟨p, hvisits, hflaw, by rintro i ⟨⟩⟩
    | some i =>
      dsimp only
      obtain ⟨e, s₁, he, hstep, hsound, hafter⟩ | ⟨err, s₁, hstep, hflaw, hline⟩ |
        ⟨f, s₁, hstep⟩ := step_flaw hc h hknows hrun hi
      · rw [bind_of_ok hstep, get_bind]
        obtain ⟨-, -, hcurrent, hcases⟩ := step_walking hc h hrun hi hstep
        rw [hcurrent]
        rcases hcases with ⟨hflow, hwalking, -⟩ | ⟨hflow, -, -, -, hterminated⟩
        · rw [hwalking.isTerminated_eq, if_neg Bool.false_ne_true]
          rcases next_cases hc hwalking hi hflow with
            ⟨a, hfind, hlabel, -⟩ | ⟨hfind, hlabel, hrunp⟩
          · -- nothing stops the jump to the next block
            rw [hfind]
            have ha := (Graph.offset_of_find?_eq_some hfind).1
            obtain ⟨s₂, hjump⟩ := exists_jumpTo hwalking.progress.marks.pending_base
              (hc.inRange_of_starts (hwalking.progress.divided.starts a ha)) hwalking.open_current
            refine ⟨fun s' _ => .last hi hsound (.inr hlabel), fun err s' hstop => ?_⟩
            cases hstop.symm.trans hjump
          · rw [hfind]
            have hnext := Code.Visits.next hvisits hi he hsound hflow hlabel
            have hrest := ih (p := { block := p.block, offset := i.next, stack := _ }) hwalking
              (hafter hflow) hblock (by rw [hrun, hrunp]; simp) hnext
            exact ⟨fun s' hok => .next hi he hsound hflow hlabel (hrest.1 s' hok), hrest.2⟩
        · rw [if_pos hterminated]
          exact ⟨fun s' _ => .last hi hsound (.inl hflow), by rintro err s' ⟨⟩⟩
      · rw [bind_of_error hstep]
        refine ⟨by rintro s' ⟨⟩, fun err' s' hstop => ?_⟩
        cases hstop
        refine ⟨p, hvisits, hflaw, fun j hj => ?_⟩
        obtain rfl := Option.some.inj (hi.symm.trans (hflaw.at?_eq hj))
        exact ⟨((hc.at?_eq_some_iff _ _).1 hi).2, hline⟩
      · rw [bind_of_error hstep]
        exact ⟨by rintro s' ⟨⟩, by rintro err s' ⟨⟩⟩

/-- The body of a loop begins with the next element of the iterator, which is no constant. -/
theorem constant?_of_primed {g : Graph} (h : g.Divided c done (some b)) (hc : c.Sound)
    (hloop : c.isLoopBody done (g.offset b) = true) {u : ValueId}
    (hu : (g.block b).body = #[u]) : g.constant? (some u) = none := by
  obtain ⟨q, hq, j, hj, hfor, hnext⟩ := (c.isLoopBody_iff done _).1 hloop
  obtain ⟨a, -, rfl, k, t, iterator, hleft⟩ := h.walked q hq
  obtain rfl : j = k := Option.some.inj ((hc.getLast?_of_forLoop hj hfor).symm.trans hleft.last)
  obtain ⟨v, a', u', -, ha', hoff, hbody, hexpr⟩ := hleft.primes hfor
  obtain rfl := h.wellFormed.ordered.eq_of_offset_eq ha' (h.now_live b rfl) (hoff.trans hnext)
  obtain rfl : u = u' := by simpa [hu] using hbody
  unfold Graph.constant?
  rw [Option.bind_some, hexpr]
  rfl

/-- A block that was not walked yet has no constants. -/
theorem knows_of_unwalked (hc : c.Sound) (h : Progress c done (some b) s) (hcurrent : s.current = b)
    (hunwalked : s.graph.Unwalked c done b) : s.Knows c [] := by
  obtain rfl := hcurrent
  have hwf := h.divided.wellFormed
  have hlt := (hwf.mem_live_iff _).1 (h.divided.now_live _ rfl)
  cases hloop : c.isLoopBody done (s.graph.offset s.current) with
  | false =>
    obtain ⟨-, hstack⟩ := hunwalked.fresh hloop
    refine ⟨⟨hlt, ?_⟩, h.code_eq, hwf.typed, fun u hu => ?_, fun k => ?_⟩
    · rw [hstack]
      exact List.not_mem_nil
    · rw [hstack] at hu
      cases hu
    · rw [hstack]
      rfl
  | true =>
    obtain ⟨u, hbody, hstack⟩ := hunwalked.primed hloop
    refine ⟨⟨hlt, ?_⟩, h.code_eq, hwf.typed, fun v hv => ?_, fun k => ?_⟩
    · rw [hstack]
      simp
    · rw [hstack] at hv
      obtain rfl : v = u := by simpa using hv
      exact (hwf.typed.body _ 0 v (by rw [hbody]; rfl)).1
    · rw [hstack]
      cases k with
      | zero => exact constant?_of_primed h.divided hc hloop hbody
      | succ k => rfl

/-- Arguments are no constants. -/
theorem knows_of_pushArgs {l : List (String × Nat)} (h : s.Knows c [])
    (hok : (l.forM (fun (name, i) => pushNew (.arg i name)) : Lift Unit) s = .ok () s') :
    s'.Knows c [] := by
  induction l generalizing s with
  | nil =>
    cases hok
    exact h
  | cons x l ih =>
    obtain ⟨name, k⟩ := x
    obtain ⟨⟨⟩, s₁, hpush, hok⟩ := bind_eq_ok.1 hok
    have hpushed := (runs_pushNew (Q := fun _ => False) h (by rintro p ⟨⟩)).of_ok hpush
    refine ih ⟨hpushed.toSolid, hpushed.code_eq, hpushed.typed, hpushed.graph.old, fun k => ?_⟩ hok
    rw [hpushed.graph.constants k]
    cases k with
    | zero => rfl
    | succ k => rfl

/-- No constants are on the stack where a block is entered. -/
theorem enter_knows (h : s.Knows c [])
    (hok : (if o = 0 then pushArguments else pure ()) s = .ok () s') : s'.Knows c [] := by
  by_cases ho : o = 0
  · rw [if_pos ho] at hok
    obtain ⟨_, _, hget, hok⟩ := bind_eq_ok.1 hok
    cases hget
    obtain ⟨_, s₁, hline, hok⟩ := bind_eq_ok.1 hok
    cases hline
    have h₁ : Knows c [] { s with line := Number.wrap (s.code.firstLine - 1) } :=
      h.of_eq rfl rfl rfl
    exact knows_of_pushArgs h₁ hok
  · rw [if_neg ho] at hok
    cases hok
    exact h

/-- Walking a block clears it, or the function is refused for a flaw. -/
theorem walk_flaw (hc : c.Sound) (h : Progress c done none s) (ho : s.pending.Holds o)
    (hnot : ¬ s.processed.Holds o) (hvisits : c.Visits (.enter o)) {s₀ : Lifter}
    (hs₀ : s₀ = { s with
      pending := s.pending.clearBit o.toNat
      processed := s.processed.setBit o.toNat }) :
    (∀ s', walk c.at? o s₀ = .ok () s' → c.Clears (.enter o)) ∧
      ∀ err s', walk c.at? o s₀ = .error (.error err) s' → c.Blames err s' := by
  subst hs₀
  obtain ⟨b, s₁, s₂, e, hensure, he, -, henter, hrest⟩ := walk_cases c.at? o _
  obtain ⟨hprogress, -, -, hoffset, hunwalked⟩ := h.begin hc ho hnot hensure
  have hprogress₁ : Progress c done (some b) ({ s₁ with current := b }.tell e) :=
    hprogress.of_eq rfl rfl rfl rfl
  obtain ⟨hwalking, -⟩ := enter_walking hc hprogress₁ rfl hoffset hunwalked henter
  have hknows := enter_knows (knows_of_unwalked hc hprogress₁ rfl hunwalked) henter
  have hwalk : ∀ fuel, (∀ s', walkFrom c.at? o fuel s₂ = .ok () s' → c.Clears (.enter o)) ∧
      ∀ err s', walkFrom c.at? o fuel s₂ = .error (.error err) s' → c.Blames err s' := fun fuel =>
    walkFrom_flaw (p := .enter o) hc hwalking hknows rfl (List.nil_append _).symm hvisits
  rcases hrest with ⟨s₃, e', hok, -, -, heq⟩ | ⟨stop, s₃, hstop, heq⟩
  · rw [heq]
    exact ⟨fun s' _ => (hwalk _).1 s₃ hok, by rintro err s' ⟨⟩⟩
  · rw [heq]
    refine ⟨by rintro s' ⟨⟩, fun err s' herr => ?_⟩
    cases herr
    exact (hwalk _).2 err _ hstop

/-! ## All walks -/

/-- What holds of the blocks while they are walked: control gets to those that are to be walked, and
those that were walked have no flaw. -/
structure Explored (c : Code) (done : List Int) (pending : BitSet) : Prop where
  visits : ∀ o, pending.Holds o → c.Visits (.enter o)
  clears : ∀ o ∈ done, c.Clears (.enter o)

/-- A block begins behind the last instruction of a block. -/
theorem starts_of_end (hc : c.Sound) (hi : i ∈ c.instructions) (hreach : c.Reaches i.offset)
    (hend : i.op.flow ≠ .goesOn ∨ c.isLabel i.next = true) (ho : o ∈ i.successors) :
    c.Starts o := by
  by_cases hflow : i.op.flow = .goesOn
  · rw [Instruction.successors, hflow] at ho
    obtain rfl := List.mem_singleton.1 ho
    exact (hc.starts_next_iff hi hflow).2 (hend.resolve_left (not_not_intro hflow))
  · exact hc.starts_of_mem_successors hi hreach hflow ho

/-- Where all blocks were walked and cleared, control gets to no flaw. -/
theorem clears_of_visits {g : Graph} (hc : c.Sound) (h : g.Traversed c done)
    (hclears : ∀ o ∈ done, c.Clears (.enter o)) (hvisits : c.Visits p) : c.Clears p := by
  induction hvisits with
  | entry => exact hclears 0 ((h.mem_done_iff hc 0).2 ⟨.entry, .inl rfl⟩)
  | @next p i e hprev hi he hsound hflow hlabel ih =>
    -- what is left of the block is clear as well
    cases ih with
    | last hj _ hend =>
      cases hi.symm.trans hj
      simp [hflow, hlabel] at hend
    | next hj he' _ _ _ hrest =>
      cases hi.symm.trans hj
      cases he.symm.trans he'
      exact hrest
  | @enter p i hprev hi hsound hend o ho ih =>
    obtain ⟨hmem, hoffset⟩ := (hc.at?_eq_some_iff _ _).1 hi
    have hreach := hprev.reaches
    refine hclears o ((h.mem_done_iff hc o).2 ⟨.step hreach hi ho, ?_⟩)
    exact starts_of_end hc hmem (hoffset ▸ hreach) hend ho

/-- Walking all blocks clears them, or the function is refused for a flaw. -/
theorem traverse_flaw (hc : c.Sound) (fuel : Nat) (h : Progress c done none s)
    (hrooted : Rooted c done s) (hsteps : s.steps = c.stepsOf done)
    (hexplored : Explored c done s.pending) :
    (∀ s', traverse c.at? fuel s = .ok () s' → ∀ p, c.Visits p → c.Clears p) ∧
      ∀ err s', traverse c.at? fuel s = .error (.error err) s' → c.Blames err s' := by
  -- one offset is taken at a time: there is none left, it was walked before, or it is walked now
  induction fuel generalizing done s with
  | zero => exact ⟨by rintro s' ⟨⟩, by rintro err s' ⟨⟩⟩
  | succ fuel ih =>
    obtain ⟨hnone, heq⟩ | ⟨o, ho, ⟨hseen, heq⟩ | ⟨hnot, heq⟩⟩ := traverse_cases hc h fuel
    · rw [heq]
      refine ⟨fun s' _ p => ?_, by rintro err s' ⟨⟩⟩
      exact clears_of_visits hc (h.traversed hrooted hnone) hexplored.clears
    · rw [heq]
      refine ih (h.drop hseen) (hrooted.drop ho) hsteps ⟨fun q hq => ?_, hexplored.clears⟩
      exact hexplored.visits q ((BitSet.holds_clearBit ho.1 q).1 hq).1
    · rw [heq]
      have hvisits := hexplored.visits o ho
      obtain ⟨hclears, hblames⟩ := walk_flaw hc h ho hnot hvisits rfl
      cases hwalk : walk c.at? o { s with
          pending := s.pending.clearBit o.toNat
          processed := s.processed.setBit o.toNat } with
      | error stop s₁ =>
        rw [bind_of_error hwalk]
        refine ⟨by rintro s' ⟨⟩, fun err s' herr => ?_⟩
        cases herr
        exact hblames err _ hwalk
      | ok u s₁ =>
        rw [bind_of_ok hwalk]
        have hclear := hclears s₁ hwalk
        obtain ⟨h₁, hsteps₁, -, hdiscovers⟩ := walk_progress hc h ho hnot hsteps rfl hwalk
        refine ih h₁ (hrooted.walk hc h ho hdiscovers) hsteps₁ ⟨fun q hq => ?_, fun q hq => ?_⟩
        · obtain ⟨i, hlast, hpending, -⟩ := hdiscovers.last_cases
          rcases hpending q hq with hold | hnew
          · exact hexplored.visits q ((BitSet.holds_clearBit ho.1 q).1 hold).1
          · exact hclear.enters hc hvisits hlast hnew
        · rcases List.mem_append.1 hq with hq | hq
          · exact hexplored.clears q hq
          · rw [List.mem_singleton.1 hq]
            exact hclear

end Lift

/-! ## A function that is refused -/

namespace Lifter

variable {c : Code} {options : LiftOptions}

/-- A lift clears the function, or refuses it for a flaw. -/
theorem all_flaw {s : Lifter} (hc : c.Sound) (hopened : IsOpened c options s)
    (hstarted : s.started = false) (hcheck : ∀ s', Lift.checkSignature c.signature s' = .ok () s') :
    (∀ s', Lift.all s = .ok () s' → ∀ p, c.Visits p → c.Clears p) ∧
      ∀ err s', Lift.all s = .error (.error err) s' →
        c.Blames err s' ∨ (∃ e, err = .stack e) ∧ ∀ p, c.Visits p → c.Clears p := by
  obtain rfl := hopened.code_eq
  have hopened' := hopened.start
  obtain ⟨hprogress, hrooted⟩ := hopened'.progress
  have hexplored : Lift.Explored s.code [] s.pending := by
    refine ⟨fun o ho => ?_, fun o ho => absurd ho List.not_mem_nil⟩
    rw [hopened.eq_zero_of_holds ho]
    exact .entry
  have hflaw := Lift.traverse_flaw hc (Lift.traverseFuel s.code) hprogress hrooted
    hopened'.steps_eq hexplored
  rw [Lift.all_of_not_started hstarted, bind_of_ok (hcheck _)]
  cases hwalks : Lift.traverse s.code.at? (Lift.traverseFuel s.code) { s with started := true } with
  | error stop s₁ =>
    rw [bind_of_error hwalks]
    refine ⟨by rintro s' ⟨⟩, fun err s' herr => .inl ?_⟩
    cases herr
    exact hflaw.2 err _ hwalks
  | ok u s₁ =>
    -- the passes behind the walks refuse a function for its stacks only
    rw [bind_of_ok hwalks]
    have hclears := hflaw.1 s₁ hwalks
    obtain ⟨done, hprogress₁, hrooted₁, hsteps₁, -, hnone⟩ :=
      Lift.traverse_progress hc hprogress hrooted hopened'.steps_eq hwalks
    obtain ⟨s₂, -, ⟨hpasses, -⟩ | ⟨-, e, b, slot, hpasses, -⟩⟩ :=
      passes_cases hc (hprogress₁.traversed hrooted₁ hnone) hprogress₁.code_eq hsteps₁
    · rw [hpasses]
      exact ⟨fun s' _ => hclears, by rintro err s' ⟨⟩⟩
    · rw [hpasses]
      refine ⟨by rintro s' ⟨⟩, fun err s' herr => .inr ?_⟩
      cases herr
      exact ⟨⟨e, rfl⟩, hclears⟩

theorem lift_flaw (hc : c.Sound) (options : LiftOptions)
    (hcheck : ∀ s, Lift.checkSignature c.signature s = .ok () s) :
    (∀ s, (ofCode c options).lift = .ok () s → ∀ p, c.Visits p → c.Clears p) ∧
      ∀ err s, (ofCode c options).lift = .error (.error err) s →
        c.Blames err s ∨ (∃ e, err = .stack e) ∧ ∀ p, c.Visits p → c.Clears p := by
  obtain ⟨hok, herror⟩ := all_flaw hc (isOpened_ofCode c options).opening rfl hcheck
  rw [lift_eq]
  unfold close
  split
  · rename_i s hall
    exact ⟨fun s' _ => hok s hall, by rintro err s' ⟨⟩⟩
  · rename_i stop s hall
    refine ⟨by rintro s' ⟨⟩, fun err s' herr => ?_⟩
    cases herr
    exact herror err s hall

/-- **A function is refused if and only if control reaches a flaw.**  Errors of the stack are left
out, as they come from the phis, which are completed after the walks.  The error is that of a flaw
that control reaches, and the line on which the lifter stops is that of the flaw. -/
theorem lift_refuses_iff {l : Listing} (hsize : l.IsAddressable) (hbuild : l.build = .ok c)
    (hdefaults : c.signature.defaults = 0) (hvarargs : c.signature.varargs = "")
    (hkwargs : c.signature.kwargs = "")
    (hsafe : ∀ f s, (ofCode c options).lift ≠ .error (.fault f) s) :
    ((∃ err s, (ofCode c options).lift = .error (.error err) s ∧ ∀ e, err ≠ .stack e) ↔
        ∃ p err, c.Visits p ∧ c.Flaw p err) ∧
      ∀ err s, (ofCode c options).lift = .error (.error err) s → (∀ e, err ≠ .stack e) →
        ∃ p, c.Visits p ∧ c.Flaw p err ∧
          ∀ i, err.instruction? = some i → i.offset = p.offset ∧ s.line = i.line := by
  have hc := Listing.sound_of_build hsize hbuild
  obtain ⟨hok, herror⟩ := lift_flaw hc options
    (Lift.checkSignature_of_plain hdefaults hvarargs hkwargs)
  have hblames : ∀ err s, (ofCode c options).lift = .error (.error err) s →
      (∀ e, err ≠ .stack e) → c.Blames err s := by
    intro err s hlift hne
    rcases herror err s hlift with hblames | ⟨⟨e, rfl⟩, -⟩
    · exact hblames
    · exact absurd rfl (hne e)
  refine ⟨⟨?_, ?_⟩, hblames⟩
  · rintro ⟨err, s, hlift, hne⟩
    obtain ⟨p, hvisits, hflaw, -⟩ := hblames err s hlift hne
    exact ⟨p, err, hvisits, hflaw⟩
  · rintro ⟨p, err, hvisits, hflaw⟩
    cases hlift : (ofCode c options).lift with
    | ok u s => exact absurd hflaw ((hok s hlift p hvisits).sound err)
    | error stop s =>
      cases stop with
      | fault f => exact absurd hlift (hsafe f s)
      | endless =>
        obtain hhalts | ⟨e, -, -, -, -, heq, -⟩ := lift_error hc hlift
        · exact absurd rfl hhalts.ne_endless
        · cases heq
      | error e =>
        rcases herror e s hlift with ⟨q, hvisits', hflaw', -⟩ | ⟨-, hclears⟩
        · exact ⟨e, s, rfl, hflaw'.ne_stack⟩
        · exact absurd hflaw ((hclears p hvisits).sound err)

end Lifter

/-- A call, the key of which was pushed in the block before. -/
def Listing.severed : Listing where
  consts := ["\"k\""]
  names := ["f"]
  code := "LOAD_GLOBAL 0\nLOAD_CONST 0\nJUMP_FORWARD next\nnext:\nLOAD_CONST 0\n.line 7\n" ++
    "CALL_FUNCTION 256\nRETURN_VALUE\n"

/-- The key is a string, but it is not on the stack of the block of the call, so control reaches a
flaw there. -/
theorem Lifter.lift_severed : Listing.severed.IsAddressable ∧
    ∃ c s i, Listing.severed.build = .ok c ∧
      (ofCode c {}).lift = .error (.error (.step i .keywordNotConstant)) s ∧ i.offset = 12 ∧
      (∃ p err, c.Visits p ∧ c.Flaw p err) ∧
      ∃ p, c.Visits p ∧ c.Flaw p (.step i .keywordNotConstant) ∧ p.offset = 12 ∧ s.line = 7 := by
  have hsize : Listing.severed.IsAddressable := by decide +kernel
  have hstops : Listing.severed.stops
      (· == .error (.step ⟨12, ⟨131⟩, 256, 7, 15⟩ .keywordNotConstant)) = true := by
    simp only [Listing.stops, Lifter.lift, Lift.all, Code.getElem?_index]
    decide +kernel
  have hplain : Listing.severed.build.toOption.map (·.signature) = some ⟨[], 0, "", ""⟩ := by
    decide +kernel
  obtain ⟨c, stop, s, hbuild, hlift, hcheck⟩ := Listing.exists_of_stops hstops
  obtain rfl := eq_of_beq hcheck
  rw [hbuild] at hplain
  have hsignature : c.signature = ⟨[], 0, "", ""⟩ := Option.some.inj hplain
  have hsafe : ∀ f s', (ofCode c {}).lift ≠ .error (.fault f) s' := by
    intro f s' heq
    cases hlift.symm.trans heq
  have hne : ∀ e, LiftError.step ⟨12, ⟨131⟩, 256, 7, 15⟩ .keywordNotConstant ≠ .stack e := by
    rintro e ⟨⟩
  obtain ⟨hiff, hflaws⟩ := lift_refuses_iff hsize hbuild (by rw [hsignature]) (by rw [hsignature])
    (by rw [hsignature]) hsafe
  obtain ⟨p, hvisits, hflaw, hplace⟩ := hflaws _ s hlift hne
  obtain ⟨hoffset, hline⟩ := hplace _ rfl
  exact ⟨hsize, c, s, _, hbuild, hlift, rfl, hiff.1 ⟨_, s, hlift, hne⟩, p, hvisits, hflaw,
    hoffset.symm, hline⟩

end StackLift
