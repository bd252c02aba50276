/-
# The blocks that are found

A lift that succeeds steps what control reaches from the beginning, each instruction once and in
the block in which it belongs.

* `Lifter.Exact` : what it means that the blocks are the right ones;
* `Lifter.exact_of_lift` : so they are if the dead ones are removed.
-/
import Mathlib.Data.List.Nodup
import StackLift.Proofs.Passes

namespace StackLift

/-! ## The right blocks -/

/-- Whether the steps and the blocks of a lifter are those of the flow of control in the code. -/
structure Lifter.Exact (c : Code) (s : Lifter) : Prop where
  /-- Control only reaches instructions, -/
  instruction : ∀ o, c.Reaches o → ∃ i, c.at? o = some i
  /-- they are stepped, and nothing else is, -/
  stepped : ∀ o, o ∈ s.steps.map (·.2.offset) ↔ c.Reaches o
  /-- none of them twice. -/
  once : (s.steps.map (·.2.offset)).Nodup
  /-- There is one block at each offset at which a run begins, and no other one. -/
  ordered : s.graph.Ordered
  block : ∀ o, s.graph.has o = true ↔ c.Reaches o ∧ (o = 0 ∨ o ∈ c.labels ∨
    ∃ i ∈ c.instructions, c.Reaches i.offset ∧ i.op.flow = .forks ∧ i.next = o)
  /-- What is stepped in a block is the run up to the next block, -/
  run : ∀ b ∈ s.graph.live, s.stepsIn b = c.runFrom s.graph.has (s.graph.offset b)
  /-- and everything that is reached belongs to one block. -/
  parts : ∀ o, c.Reaches o ↔ ∃ b ∈ s.graph.live, ∃ i ∈ s.stepsIn b, i.offset = o
  apart : ∀ a ∈ s.graph.live, ∀ b ∈ s.graph.live, ∀ i ∈ s.stepsIn a, i ∈ s.stepsIn b → a = b
  /-- A block is left for where control goes after its last instruction. -/
  left : ∀ b ∈ s.graph.live, ∃ t i, (s.graph.block b).terminator = some t ∧
    (s.graph.block b).succs = t.targets.eraseDups ∧ (∀ a ∈ t.targets, a ∈ s.graph.live) ∧
    (s.stepsIn b).getLast? = some i ∧
    ∀ o, o ∈ t.targets.map s.graph.offset ↔ o ∈ i.successors
  /-- Each block is on a path from the entry. -/
  reachable : ∃ e, s.graph.entry? = some e ∧
    ∀ b ∈ s.graph.live, ∃ rest, s.graph.Trail e (b :: rest)
  /-- The blocks that were removed are at the labels that control does not reach. -/
  dead_ordered : s.dead.Pairwise fun a b => s.graph.offset a < s.graph.offset b
  dead : ∀ o, o ∈ s.dead.map s.graph.offset ↔ o ∈ c.labels ∧ ¬ c.Reaches o

/-! ## Steps -/

namespace Code

variable {c : Code} {done : List Int} {g : Graph}

theorem map_offset_stepsOf (c : Code) (done : List Int) :
    (c.stepsOf done).map (·.2.offset) = done.flatMap fun o => (c.blockRun o).map (·.offset) := by
  simp [stepsOf, List.map_flatMap, Function.comp_def]

/-- No instruction is stepped twice. -/
theorem Sound.nodup_stepsOf (hc : c.Sound) (hstarts : ∀ o ∈ done, c.Starts o)
    (hnodup : done.Nodup) : ((c.stepsOf done).map (·.2.offset)).Nodup := by
  rw [map_offset_stepsOf, List.nodup_flatMap]
  constructor
  · intro o _
    rw [List.Nodup, List.pairwise_map]
    exact (hc.pairwise_runFrom _ o).imp fun h => Int.ne_of_lt h
  · refine hnodup.imp_of_mem fun {o o'} ho ho' hne => ?_
    rintro p hp hp'
    obtain ⟨i, hi, rfl⟩ := List.mem_map.1 hp
    obtain ⟨j, hj, hoff⟩ := List.mem_map.1 hp'
    obtain rfl := hc.laidOut.eq_of_offset_eq (Code.mem_of_mem_runFrom hj)
      (Code.mem_of_mem_runFrom hi) hoff
    exact hne (hc.start_eq_of_mem_runFrom (hstarts o ho) (hstarts o' ho') hi hj)

end Code

/-! ## Blocks -/

namespace Lifter.Lifted

variable {c : Code} {done : List Int} {g : Graph} {s : Lifter} {b : BlockId}

/-- Without the dead blocks, the graph holds those that were walked. -/
theorem mem_live_iff_walked (h : Lifted c done g s) (hc : c.Sound)
    (hkeep : s.options.keepDead = false) (b : BlockId) :
    b ∈ s.graph.live ↔ b ∈ g.live ∧ g.offset b ∈ done := by
  rw [h.mem_live_iff hc, hkeep, or_iff_right Bool.false_ne_true]

theorem has_iff_walked (h : Lifted c done g s) (hc : c.Sound)
    (hkeep : s.options.keepDead = false) (o : Int) : s.graph.has o = true ↔ o ∈ done := by
  rw [Graph.has_iff]
  constructor
  · rintro ⟨b, hb, rfl⟩
    rw [h.offset_eq]
    exact ((h.mem_live_iff_walked hc hkeep b).1 hb).2
  · intro ho
    obtain ⟨b, hb, hoff, -⟩ := h.traversed.divided.walked o ho
    exact ⟨b, (h.mem_live_iff_walked hc hkeep b).2 ⟨hb, hoff ▸ ho⟩, (h.offset_eq b).trans hoff⟩

/-- In the end, the run of a block that was walked goes up to the next block. -/
theorem stepsIn_eq_runFrom (h : Lifted c done g s) (hc : c.Sound)
    (hkeep : s.options.keepDead = false) (ho : g.offset b ∈ done) :
    s.stepsIn b = c.runFrom s.graph.has (s.graph.offset b) := by
  rw [h.stepsIn_eq ho, h.offset_eq]
  refine Code.straight_congr fun i hi hflow => ?_
  have hmem := Code.mem_of_mem_runFrom hi
  have hreach : c.Reaches i.next := by
    refine .step (hc.reaches_of_mem_runFrom (h.traversed.done_reaches _ ho) hi)
      (hc.at?_offset hmem) ?_
    rw [Instruction.successors, hflow]
    exact List.mem_singleton_self _
  -- where control goes on a block stands behind it only at a label
  rw [Bool.eq_iff_iff, h.has_iff_walked hc hkeep, h.traversed.mem_done_iff hc,
    and_iff_right hreach, hc.starts_next_iff hmem hflow]

/-- The blocks that were removed are at the labels that control does not reach. -/
theorem mem_dead_iff (h : Lifted c done g s) (hc : c.Sound)
    (hkeep : s.options.keepDead = false) (o : Int) :
    o ∈ s.dead.map s.graph.offset ↔ o ∈ c.labels ∧ ¬ c.Reaches o := by
  have hdone := h.traversed.mem_done_iff hc o
  rw [h.dead_eq hkeep, List.mem_map]
  constructor
  · rintro ⟨b, hb, rfl⟩
    rw [h.offset_eq] at hdone ⊢
    obtain ⟨hlive, hnot⟩ := (h.traversed.mem_deadBlocks_iff hc b).1 hb
    have hstart := h.traversed.divided.starts b hlive
    have hreach : ¬ c.Reaches (g.offset b) := fun hreach => hnot (hdone.2 ⟨hreach, hstart⟩)
    refine ⟨?_, hreach⟩
    rcases hstart with hzero | hlabel | ⟨i, hi, hi', hflow, hnext⟩
    · exact absurd (hzero ▸ .entry) hreach
    · exact hlabel
    · -- control would reach the offset behind a fork
      refine absurd (.step hi' (hc.at?_offset hi) ?_) hreach
      rw [Instruction.successors, hflow, hnext]
      exact List.mem_cons_of_mem _ (List.mem_singleton_self _)
  · rintro ⟨hlabel, hreach⟩
    obtain ⟨b, hb, rfl⟩ := h.traversed.divided.label_block o hlabel
    exact ⟨b, (h.traversed.mem_deadBlocks_iff hc b).2 ⟨hb, fun ho => hreach (hdone.1 ho).1⟩,
      h.offset_eq b⟩

/-- A block is left for where control goes after its last instruction. -/
theorem exists_left (h : Lifted c done g s) (hc : c.Sound) (hlive : b ∈ g.live)
    (ho : g.offset b ∈ done) :
    ∃ t i, (s.graph.block b).terminator = some t ∧
      (s.graph.block b).succs = t.targets.eraseDups ∧ (∀ a ∈ t.targets, a ∈ s.graph.live) ∧
      (s.stepsIn b).getLast? = some i ∧
      ∀ o, o ∈ t.targets.map s.graph.offset ↔ o ∈ i.successors := by
  obtain ⟨i, t, iterator, hleft⟩ := h.traversed.walked hlive ho
  obtain ⟨phis, hblock⟩ := h.block_eq b
  refine ⟨t, i, ?_, ?_, ?_, ?_, ?_⟩
  · rw [hblock]
    exact hleft.terminator_eq
  · rw [hblock]
    exact hleft.succs_eq
  · intro a ha
    have hsucc : a ∈ (g.block b).succs := by
      rw [hleft.succs_eq]
      exact List.mem_eraseDups.2 ha
    exact (h.mem_live_iff hc a).2 ⟨hleft.targets_live h.traversed.divided.wellFormed ha,
      .inr (h.traversed.succs_done b a hsucc)⟩
  · rw [h.stepsIn_eq ho]
    exact hleft.last
  · intro o
    rw [← hleft.successors, List.mem_map]
    exact exists_congr fun a => and_congr_right fun _ => by rw [h.offset_eq]

end Lifter.Lifted

/-- The blocks that a lift finds in the code of a listing, and what it steps in them, are those of
the flow of control. -/
theorem Lifter.exact_of_lift {l : Listing} {c : Code} {options : LiftOptions} {s : Lifter}
    (hsize : l.IsAddressable) (hbuild : l.build = .ok c) (hkeep : options.keepDead = false)
    (hlift : (Lifter.ofCode c options).lift = .ok () s) : s.Exact c := by
  have hc := Listing.sound_of_build hsize hbuild
  obtain ⟨rfl, done, g, h⟩ := Lifter.lift_ok hc hlift
  have ht := h.traversed
  have hlive := h.mem_live_iff_walked hc hkeep
  have hsteps : ∀ {b}, b ∈ s.graph.live → s.stepsIn b = c.blockRun (g.offset b) := fun hb =>
    h.stepsIn_eq ((hlive _).1 hb).2
  obtain ⟨e, he, hzero⟩ := ht.exists_entry
  refine ⟨?_, ?_, ?_, h.ordered, ?_, ?_, ?_, ?_, ?_, ?_, ?_, h.mem_dead_iff hc hkeep⟩
  · intro o ho
    obtain ⟨p, -, i, hi, rfl⟩ := (ht.reaches_iff hc o).1 ho
    exact ⟨i, hc.at?_offset (Code.mem_of_mem_runFrom hi)⟩
  · intro o
    rw [h.steps_eq, Code.map_offset_stepsOf, ht.reaches_iff hc]
    simp
  · rw [h.steps_eq]
    exact hc.nodup_stepsOf (fun o ho => ht.starts ho) ht.nodup
  · intro o
    rw [h.has_iff_walked hc hkeep, ht.mem_done_iff hc]
    rfl
  · exact fun b hb => h.stepsIn_eq_runFrom hc hkeep ((hlive b).1 hb).2
  · intro o
    rw [ht.reaches_iff hc]
    constructor
    · rintro ⟨p, hp, hi⟩
      obtain ⟨b, hb, rfl, -⟩ := ht.divided.walked p hp
      refine ⟨b, (hlive b).2 ⟨hb, hp⟩, ?_⟩
      rwa [h.stepsIn_eq hp]
    · rintro ⟨b, hb, hi⟩
      rw [hsteps hb] at hi
      exact ⟨_, ((hlive b).1 hb).2, hi⟩
  · intro a ha b hb i hia hib
    rw [hsteps ha] at hia
    rw [hsteps hb] at hib
    obtain ⟨ha, hao⟩ := (hlive a).1 ha
    obtain ⟨hb, hbo⟩ := (hlive b).1 hb
    exact ht.divided.wellFormed.ordered.eq_of_offset_eq ha hb
      (hc.start_eq_of_mem_runFrom (ht.starts hao) (ht.starts hbo) hia hib)
  · exact fun b hb => h.exists_left hc ((hlive b).1 hb).1 ((hlive b).1 hb).2
  · refine ⟨e, (h.entry?_eq_some_iff hc e).2 ⟨he, hzero⟩, fun b hb => ?_⟩
    obtain ⟨rest, htrail⟩ := ht.exists_trail_to hc he hzero ((hlive b).1 hb).1 ((hlive b).1 hb).2
    exact ⟨rest, h.trail_iff.2 htrail⟩
  · rw [h.dead_eq hkeep]
    refine List.Pairwise.imp (fun {a b} hab => ?_)
      (ht.divided.wellFormed.ordered.sublist List.filter_sublist)
    rwa [h.offset_eq, h.offset_eq]

theorem Lifter.exact_loop : Listing.loop.IsAddressable ∧ ∃ c s, Listing.loop.build = .ok c ∧
    (Lifter.ofCode c {}).lift = .ok () s ∧ s.Exact c ∧ s.dead = [2] := by
  have hlifts : Listing.loop.lifts (·.dead == [2]) = true := by
    simp only [Listing.lifts, Lifter.lift, Lift.all, Code.getElem?_index]
    decide +kernel
  obtain ⟨c, s, hbuild, hlift, hdead⟩ := Listing.exists_of_lifts hlifts
  have hsize : Listing.loop.IsAddressable := by decide +kernel
  exact ⟨hsize, c, s, hbuild, hlift, Lifter.exact_of_lift hsize hbuild rfl hlift,
    beq_iff_eq.1 hdead⟩

end StackLift
