/-
# Functions that are refused for their stack

The phi of a slot that is too deep, or that belongs to a block nothing leads to, cannot be
completed.  Then the machine with one stack finds too little on some path.  For a slot is too deep
only if it is deeper than the stack can be on a path that visits no block twice: each instruction
pushes at most one value there, where the next element of an iterator counts for the header of its
loop.

* `Flat.length_runBlock_le` : how high the stack is after a visit;
* `Code.pushers` : the instructions that push something at a visit;
* `Lifter.Surveyed.length_stack_le` : how high the stack is after a path;
* `Lifter.exists_failing_path` : where a function is refused, the machine fails.
-/
import StackLift.Proofs.Stopping
import StackLift.Proofs.Underflow

namespace StackLift

/-! ## The height of the stack -/

namespace Flat

variable {f f' : Flat} {run : List Instruction}

/-- An instruction pushes one value at most, and the header of a loop none. -/
theorem length_step_le {i : Instruction} (h : f.step i = some f') :
    f'.stack.length ≤ f.stack.length + if i.op.effect? = some .forLoop then 0 else 1 := by
  cases moves_of_step h with
  | stay => exact Nat.le_add_right ..
  | make he hn _ =>
    rw [if_neg he, make, List.length_cons, List.length_drop]
    omega
  | header _ _ => exact Nat.le_add_right ..
  | leave pops _ =>
    cases pops with
    | true =>
      simp only [if_true, List.length_tail]
      omega
    | false => exact Nat.le_add_right ..

theorem length_foldlM_le (h : run.foldlM step f = some f') : f'.stack.length ≤
    f.stack.length + (run.filter (·.op.effect? != some .forLoop)).length := by
  induction run generalizing f with
  | nil =>
    cases h
    exact Nat.le_add_right ..
  | cons i run ih =>
    rw [List.foldlM_cons] at h
    obtain ⟨f₁, hstep, hrun⟩ := Option.bind_eq_some_iff.1 h
    have hi := length_step_le hstep
    have hrest := ih hrun
    rw [List.filter_cons]
    by_cases hfor : i.op.effect? = some .forLoop
    · rw [if_pos hfor] at hi
      rw [if_neg (by simp [hfor])]
      omega
    · rw [if_neg hfor] at hi
      rw [if_pos (by simp [hfor]), List.length_cons]
      omega

theorem length_enter (args : List String) (looped : Bool) (f : Flat) :
    (f.enter args looped).stack.length =
      f.stack.length + args.length + if looped then 1 else 0 := by
  have hargs : ∀ (f : Flat), (args.foldl (fun f _ => f.make []) f).stack.length =
      f.stack.length + args.length := by
    induction args with
    | nil => exact fun f => rfl
    | cons a args ih =>
      intro f
      rw [List.foldl_cons, ih, make, List.length_cons, List.length_cons]
      omega
  unfold enter
  cases looped with
  | true => rw [if_pos rfl, if_pos rfl, make, List.length_cons, hargs]
  | false => exact hargs f

/-- How high the stack can be after a visit of a block. -/
theorem length_runBlock_le {args : List String} {looped : Bool}
    (h : f.runBlock args looped run = some f') : f'.stack.length ≤
      f.stack.length + args.length + (if looped then 1 else 0) +
        (run.filter (·.op.effect? != some .forLoop)).length := by
  rw [← length_enter]
  exact length_foldlM_le h

end Flat

/-! ## What pushes at a visit -/

namespace Code

variable {c : Code}

/-- The instructions that push something when the block at an offset is visited: the header of the
loop that has it as its body, and those of its run that are no headers. -/
def pushers (c : Code) (o : Int) : List Instruction :=
  c.instructions.filter (fun i => i.op.effect? == some .forLoop && i.next == o) ++
    (c.blockRun o).filter (·.op.effect? != some .forLoop)

theorem mem_pushers_iff (c : Code) (o : Int) (i : Instruction) : i ∈ c.pushers o ↔
    i ∈ c.instructions ∧ i.op.effect? = some .forLoop ∧ i.next = o ∨
      i ∈ c.blockRun o ∧ i.op.effect? ≠ some .forLoop := by
  simp [pushers]

/-- No instruction pushes at visits of two blocks. -/
theorem Sound.nodup_pushers (hc : c.Sound) {os : List Int} (hnodup : os.Nodup)
    (hstarts : ∀ o ∈ os, c.Starts o) : (os.flatMap c.pushers).Nodup := by
  have hinstructions : c.instructions.Nodup := by
    refine hc.laidOut.pairwise.imp_of_mem fun {i j} hi _ hij heq => ?_
    have hlt := hc.laidOut.offset_lt_next hi
    rw [← heq] at hij
    omega
  refine List.nodup_flatMap.2 ⟨fun o _ => ?_, ?_⟩
  · refine List.nodup_append.2 ⟨hinstructions.filter _,
      (hinstructions.sublist (c.runFrom_sublist c.isLabel o)).filter _, ?_⟩
    rintro i hi j hj rfl
    -- a header is not among those that are none
    simp only [List.mem_filter, Bool.and_eq_true, beq_iff_eq, bne_iff_ne] at hi hj
    exact hj.2 hi.2.1
  · refine hnodup.imp_of_mem fun {o p} ho hp hne => ?_
    intro i hi hi'
    rcases (c.mem_pushers_iff o i).1 hi with ⟨-, hfor, rfl⟩ | ⟨hrun, hno⟩
    · rcases (c.mem_pushers_iff p i).1 hi' with ⟨-, -, heq⟩ | ⟨-, hno⟩
      · exact hne heq
      · exact hno hfor
    · rcases (c.mem_pushers_iff p i).1 hi' with ⟨-, hfor, -⟩ | ⟨hrun', -⟩
      · exact hno hfor
      · exact hne (hc.start_eq_of_mem_runFrom (hstarts o ho) (hstarts p hp) hrun hrun')

/-- There are not more of them than instructions. -/
theorem Sound.length_pushers_le (hc : c.Sound) {os : List Int} (hnodup : os.Nodup)
    (hstarts : ∀ o ∈ os, c.Starts o) :
    (os.flatMap c.pushers).length ≤ c.instructions.length := by
  refine (List.subperm_of_subset (hc.nodup_pushers hnodup hstarts) fun i hi => ?_).length_le
  obtain ⟨o, -, hi⟩ := List.mem_flatMap.1 hi
  rcases (c.mem_pushers_iff o i).1 hi with ⟨hmem, -, -⟩ | ⟨hrun, -⟩
  · exact hmem
  · exact mem_of_mem_runFrom hrun

/-- The arguments are pushed once if no block is visited twice. -/
theorem length_argsAt_le (c : Code) {os : List Int} (hnodup : os.Nodup) :
    (os.flatMap c.argsAt).length ≤ c.signature.args.length := by
  induction os with
  | nil => exact Nat.zero_le _
  | cons o os ih =>
    obtain ⟨hnot, hnodup⟩ := List.nodup_cons.1 hnodup
    rw [List.flatMap_cons, List.length_append]
    by_cases ho : o = 0
    · have hrest : os.flatMap c.argsAt = [] := by
        refine List.flatMap_eq_nil_iff.2 fun p hp => if_neg fun hzero => hnot ?_
        rwa [ho, ← hzero]
      rw [hrest, argsAt, if_pos ho]
      exact Nat.le_refl _
    · rw [argsAt, if_neg ho, List.length_nil, Nat.zero_add]
      exact ih hnodup

end Code

/-! ## Paths -/

namespace Graph

variable {g : Graph} {e b : BlockId} {rest : List BlockId}

/-- A path leads to its last block that visits none twice. -/
theorem Trail.exists_nodup {path : List BlockId} (h : g.Trail e path) (hpath : path = b :: rest) :
    ∃ rest, g.Trail e (b :: rest) ∧ (b :: rest).Nodup := by
  induction h generalizing b rest with
  | entry =>
    cases hpath
    exact ⟨[], .entry, by simp⟩
  | @step a b' rest' _ ha ih =>
    cases hpath
    obtain ⟨rest, htrail, hnodup⟩ := ih rfl
    by_cases hmem : b' ∈ a :: rest
    · -- the path was there before
      obtain ⟨before, after, heq⟩ := List.append_of_mem hmem
      have hsuffix : b' :: after <:+ a :: rest := ⟨before, heq.symm⟩
      exact ⟨after, htrail.of_suffix hsuffix, hnodup.sublist hsuffix.sublist⟩
    · exact ⟨a :: rest, .step htrail ha, List.nodup_cons.2 ⟨hmem, hnodup⟩⟩

end Graph

namespace Lifter.Surveyed

variable {c : Code} {done : List Int} {g : Graph} {s : Lifter} {e b : BlockId}
  {path : List BlockId}

/-- How high the stack is after a path. -/
theorem length_stack_le (h : Surveyed c done g s) (hpath : ∀ b ∈ path, g.offset b ∈ done)
    {f : Flat} (hrun : s.run path = some f) :
    f.stack.length ≤ ((path.map g.offset).flatMap c.argsAt).length +
      ((path.map g.offset).flatMap c.pushers).length := by
  induction path generalizing f with
  | nil =>
    cases hrun
    exact Nat.zero_le _
  | cons b rest ih =>
    obtain ⟨f₀, hrest, -⟩ := Option.bind_eq_some_iff.1 hrun
    have hold := ih (fun a ha => hpath a (List.mem_cons_of_mem _ ha)) hrest
    rw [h.run_cons (hpath b List.mem_cons_self) hrest] at hrun
    have hvisit := Flat.length_runBlock_le hrun
    -- the next element of an iterator counts for the header of the loop
    have hlooped : (if c.isLoopBody done (g.offset b) then 1 else 0) ≤ (c.instructions.filter
        (fun i => i.op.effect? == some .forLoop && i.next == g.offset b)).length := by
      split
      · rename_i hloop
        obtain ⟨p, -, i, hi, hfor, hnext⟩ := (c.isLoopBody_iff done _).1 hloop
        refine List.length_pos_of_mem (a := i) (List.mem_filter.2 ⟨Code.mem_of_mem_runFrom hi, ?_⟩)
        simp [hfor, hnext]
      · exact Nat.zero_le _
    rw [List.map_cons, List.flatMap_cons, List.flatMap_cons, List.length_append,
      List.length_append, Code.pushers, List.length_append]
    dsimp only at hvisit
    omega

/-- Along a path that visits no block twice the stack stays below the depth limit. -/
theorem length_stack_lt (h : Surveyed c done g s) (hc : c.Sound)
    (hpath : ∀ b ∈ path, b ∈ g.live ∧ g.offset b ∈ done) (hnodup : path.Nodup) {f : Flat}
    (hrun : s.run path = some f) : (f.stack.length : Int) < Lift.depthLimit c := by
  have hinj : (path.map g.offset).Nodup := hnodup.map_on fun a ha b hb hab =>
    h.traversed.divided.wellFormed.ordered.eq_of_offset_eq (hpath a ha).1 (hpath b hb).1 hab
  have hstarts : ∀ o ∈ path.map g.offset, c.Starts o := by
    intro o ho
    obtain ⟨b, hb, rfl⟩ := List.mem_map.1 ho
    exact h.traversed.starts (hpath b hb).2
  have hle := h.length_stack_le (fun b hb => (hpath b hb).2) hrun
  have hargs := c.length_argsAt_le hinj
  have hpushers := hc.length_pushers_le hinj hstarts
  unfold Lift.depthLimit
  omega

/-- Where a phi cannot be completed, the machine fails on some path. -/
theorem exists_failing_of_stuck (h : Surveyed c done g s) (hc : c.Sound) (he : e ∈ g.live)
    (hzero : g.offset e = 0) {slot : Nat} {error : StackError}
    (hstuck : s.graph.Stuck (Lift.depthLimit c) b slot error) :
    ∃ path, g.Trail e path ∧ s.run path = none := by
  obtain ⟨v, hv⟩ : ∃ v, (s.graph.block b).phis[slot]? = some v := by
    cases hstuck with
    | underflow hv _ => exact ⟨_, hv⟩
    | tooDeep hv _ _ => exact ⟨_, hv⟩
  have hdemands : g.Demands b (slot + 1) :=
    ((h.feeding.demanded b).of_blocks_eq (g := g) (by rw [Graph.kept_eq])).mono
      (Array.getElem?_eq_some_iff.1 hv).1
  obtain ⟨hb, ho⟩ := h.traversed.walked_of_demands (Nat.succ_pos _) hdemands
  obtain ⟨rest, htrail⟩ := h.traversed.exists_trail_to hc he hzero hb ho
  obtain ⟨rest, htrail, hnodup⟩ := htrail.exists_nodup rfl
  cases hrest : s.run rest with
  | none =>
    -- the machine fails before it gets to the block
    cases htrail with
    | entry => cases hrest
    | step htrail _ => exact ⟨_, htrail, hrest⟩
  | some f =>
    refine h.exists_failing_trail he hzero hdemands htrail hrest ?_
    cases hstuck with
    | underflow _ hpreds =>
      -- nothing leads to the block, so it is the entry
      cases htrail with
      | entry =>
        cases hrest
        exact Nat.succ_pos slot
      | @step a _ _ _ ha =>
        have hpred := (h.traversed.divided.wellFormed.edge_iff a b).1 ha
        obtain ⟨phis, hblock⟩ := h.block_eq b
        rw [hblock] at hpreds
        rw [show (g.block b).preds = [] from hpreds] at hpred
        cases hpred
    | tooDeep _ _ hdeep =>
      have hwalked : ∀ a ∈ rest, a ∈ g.live ∧ g.offset a ∈ done := by
        intro a ha
        obtain ⟨before, after, heq⟩ := List.append_of_mem ha
        have hsuffix : a :: after <:+ b :: rest := ⟨b :: before, by rw [heq, List.cons_append]⟩
        exact h.walked_of_trail he hzero (htrail.of_suffix hsuffix)
      have hlt := h.length_stack_lt hc hwalked (List.nodup_cons.1 hnodup).2 hrest
      omega

end Lifter.Surveyed

/-! ## All functions -/

/-- Where a function is refused for its stack, there is a path on which the machine with one stack
takes more than was pushed. -/
theorem Lifter.exists_failing_path {l : Listing} {c : Code} {options : LiftOptions} {s : Lifter}
    {error : StackError} (hsize : l.IsAddressable) (hbuild : l.build = .ok c)
    (hlift : (Lifter.ofCode c options).lift = .error (.error (.stack error)) s) :
    ∃ e, s.graph.entry? = some e ∧ ∃ path, s.graph.Trail e path ∧ s.run path = none := by
  have hc := Listing.sound_of_build hsize hbuild
  rcases Lifter.lift_error hc hlift with hhalts | ⟨_, done, g, b, slot, -, h, hstuck⟩
  · cases hhalts with
    | refuses hrefuses =>
      obtain ⟨e, heq, hne⟩ := hrefuses
      cases heq
      exact absurd rfl (hne error)
  · obtain ⟨e, he, hzero⟩ := h.traversed.exists_entry
    obtain ⟨path, htrail, hnone⟩ := h.exists_failing_of_stuck hc he hzero hstuck
    exact ⟨e, (h.entry?_eq_some_iff hc e).2 ⟨he, hzero⟩, path, h.trail_iff.2 htrail, hnone⟩

/-- A loop at the entry that takes a value each time. -/
def Listing.greedy : Listing where
  code := "POP_JUMP_IF_TRUE 0\nJUMP_ABSOLUTE 0\n"

/-- It is refused because a slot gets too deep, and a path leads to where it takes too much. -/
theorem Lifter.fails_greedy : Listing.greedy.IsAddressable ∧ ∃ c s, Listing.greedy.build = .ok c ∧
    (Lifter.ofCode c {}).lift = .error (.error (.stack (.tooDeep 0 3))) s ∧
    ∃ e, s.graph.entry? = some e ∧ ∃ path, s.graph.Trail e path ∧ s.run path = none := by
  have hstops : Listing.greedy.stops (· == .error (.stack (.tooDeep 0 3))) = true := by
    simp only [Listing.stops, Lifter.lift, Lift.all, Code.getElem?_index]
    decide +kernel
  obtain ⟨c, stop, s, hbuild, hlift, hcheck⟩ := Listing.exists_of_stops hstops
  rw [eq_of_beq hcheck] at hlift
  have hsize : Listing.greedy.IsAddressable := by decide +kernel
  exact ⟨hsize, c, s, hbuild, hlift, Lifter.exists_failing_path hsize hbuild hlift⟩

end StackLift
