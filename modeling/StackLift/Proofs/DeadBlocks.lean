/-
# What it changes to keep dead blocks

Whether dead blocks are kept makes no difference to the walks.  Dominators are found before dead
blocks are removed, and no phi is in a dead block, so it makes no difference to the phis either.
A graph with its dead blocks has all blocks and values of the one without them, and besides only
blank blocks at labels that control does not reach.

* `Graph.completePhis_withLive` : phis are completed without a look at the list of blocks;
* `Lifter.lift_with_dead` : the two lifts of a function compared.
-/
import StackLift.Proofs.Discovery
import StackLift.Proofs.Forgetting
import StackLift.Proofs.Handoff
import StackLift.Proofs.Independence

namespace StackLift

/-! ## Another list of blocks -/

/-- The graph with another list of blocks. -/
def Graph.withLive (live : List BlockId) (g : Graph) : Graph := { g with live }

namespace Graph

variable (g : Graph) (live : List BlockId)

theorem addSlots_withLive (b : BlockId) (line : Int) (n : Nat) :
    (g.withLive live).addSlots b line n = (g.addSlots b line n).withLive live := by
  induction n generalizing g with
  | zero => rfl
  | succ n ih => exact ih (g.addSlot b line)

theorem reach_withLive (b : BlockId) (line : Int) (depth : Nat) :
    (g.withLive live).reach b line depth = (g.reach b line depth).withLive live :=
  g.addSlots_withLive live b line _

theorem exitSlot_withLive (b : BlockId) (line : Int) (depth : Nat) :
    (g.withLive live).exitSlot b line depth =
      ((g.exitSlot b line depth).1, (g.exitSlot b line depth).2.withLive live) := by
  by_cases h : depth < (g.block b).stack.length
  · rw [exitSlot_of_lt h, exitSlot_of_lt (g := g.withLive live) h]
    rfl
  · have hle := Nat.le_of_not_lt h
    rw [exitSlot_of_ge hle, exitSlot_of_ge (g := g.withLive live) hle]
    simp only [entrySlot, reach_withLive]
    rfl

end Graph

namespace PhiCompletion

/-- The state with another list of blocks. -/
def State.withLive (live : List BlockId) (r : State) : State :=
  { r with graph := r.graph.withLive live }

variable (live : List BlockId) (r : State)

theorem feed_withLive (v : ValueId) (slot : Int) (pred : BlockId) :
    feed v slot pred (r.withLive live) = onState (State.withLive live) (feed v slot pred r) := by
  obtain ⟨g, queue, events⟩ := r
  change feed v slot pred ⟨g.withLive live, queue, events⟩ = _
  have hline : (g.withLive live).lineOf pred = g.lineOf pred := rfl
  by_cases hslot : slot < 0
  · simp only [feed, Graph.exitSlotAt, if_pos hslot]
    rfl
  · simp only [feed, Graph.exitSlotAt, if_neg hslot, hline, Graph.exitSlot_withLive]
    generalize g.exitSlot pred (g.lineOf pred) slot.toNat = x
    obtain ⟨⟨value, through⟩, g'⟩ := x
    have hsame : (g'.withLive live).hasIncoming v pred = g'.hasIncoming v pred := rfl
    by_cases hincoming : g'.hasIncoming v pred = true
    · rw [if_pos (hsame ▸ hincoming), if_pos hincoming]
      rfl
    · rw [if_neg (hsame ▸ hincoming), if_neg hincoming]
      rfl

theorem forM_feed_withLive (v : ValueId) (slot : Int) (preds : List BlockId) :
    preds.forM (feed v slot) (r.withLive live) =
      onState (State.withLive live) (preds.forM (feed v slot) r) := by
  induction preds generalizing r with
  | nil => rfl
  | cons pred preds ih => exact bind_onState (feed_withLive live r v slot pred) fun _ r' _ => ih r'

theorem complete_withLive (maxDepth : Int) (v : ValueId) (p : Phi) :
    complete maxDepth v p (r.withLive live) =
      onState (State.withLive live) (complete maxDepth v p r) := by
  unfold complete
  rw [get_bind, get_bind]
  have hblock : (r.withLive live).graph.block ((r.withLive live).graph.definition v).block =
    r.graph.block (r.graph.definition v).block := rfl
  dsimp only
  rw [hblock]
  by_cases hempty : (r.graph.block (r.graph.definition v).block).preds.isEmpty = true
  · rw [if_pos hempty, if_pos hempty]
    rfl
  rw [if_neg hempty, if_neg hempty]
  by_cases hdeep : maxDepth ≤ p.slot
  · rw [if_pos hdeep, if_pos hdeep]
    rfl
  rw [if_neg hdeep, if_neg hdeep]
  exact bind_onState (forM_feed_withLive live r v p.slot _) fun _ r' _ => rfl

theorem drain_withLive (maxDepth : Int) (fuel : Nat) :
    drain maxDepth fuel (r.withLive live) =
      onState (State.withLive live) (drain maxDepth fuel r) := by
  induction fuel generalizing r with
  | zero => rfl
  | succ fuel ih =>
    rw [drain, get_bind, get_bind, show (r.withLive live).queue = r.queue from rfl]
    cases r.queue.next? with
    | none => rfl
    | some next =>
      obtain ⟨v, queue⟩ := next
      dsimp only
      have hphi : ((r.withLive live).graph.definition v).phi? = (r.graph.definition v).phi? := rfl
      rw [hphi]
      cases (r.graph.definition v).phi? with
      | none => rfl
      | some p =>
        refine bind_onState (f := State.withLive live) rfl fun _ r₁ hset => ?_
        cases hset
        dsimp only
        cases p.complete with
        | true => exact ih { r with queue }
        | false =>
          exact bind_onState (complete_withLive live { r with queue } maxDepth v p) fun _ r' _ =>
            ih r'

end PhiCompletion

/-- Phis are completed without a look at the list of blocks, but for the phis to begin with. -/
theorem Graph.completePhis_withLive (g : Graph) (live : List BlockId) (maxDepth : Int)
    (h : PhiCompletion.allPhis (g.withLive live) = PhiCompletion.allPhis g) :
    (g.withLive live).completePhis maxDepth =
      onState (PhiCompletion.State.withLive live) (g.completePhis maxDepth) := by
  have hfuel : PhiCompletion.fuelFor (g.withLive live) maxDepth =
      PhiCompletion.fuelFor g maxDepth := by
    unfold PhiCompletion.fuelFor
    rw [h]
    rfl
  rw [completePhis, completePhis, hfuel, h]
  exact PhiCompletion.drain_withLive live ⟨g, { front := PhiCompletion.allPhis g }, #[]⟩ maxDepth _

/-! ## Removing dead blocks -/

theorem flatMap_filter_of_nil {α β : Type} {f : α → List β} {p : α → Bool} {l : List α}
    (h : ∀ a ∈ l, p a = false → f a = []) : (l.filter p).flatMap f = l.flatMap f := by
  induction l with
  | nil => rfl
  | cons a l ih =>
    have hrest := ih fun x hx => h x (List.mem_cons_of_mem a hx)
    cases ha : p a with
    | true => rw [List.filter_cons_of_pos ha, List.flatMap_cons, List.flatMap_cons, hrest]
    | false =>
      rw [List.filter_cons_of_neg (by simp [ha]), List.flatMap_cons, hrest,
        h a List.mem_cons_self ha, List.nil_append]

namespace Graph.Traversed

variable {c : Code} {done : List Int} {g : Graph} {a b : BlockId}

/-- The blocks that are kept are those that were walked, in their order. -/
theorem live_kept_eq (h : g.Traversed c done) (hc : c.Sound) :
    (g.kept false).live = g.live.filter fun b => g.offset b ∈ done := by
  have hnodup := h.divided.wellFormed.ordered.nodup
  rw [kept, if_neg Bool.false_ne_true, stripDead, foldl_discard_eq, ← List.diff_eq_foldl,
    hnodup.sdiff_eq_filter]
  refine List.filter_congr fun b hb => ?_
  rw [decide_eq_decide, h.mem_deadBlocks_iff hc, not_and, not_not]
  exact ⟨fun hdone => hdone hb, fun hdone _ => hdone⟩

/-- No phi is in a dead block. -/
theorem allPhis_kept (h : g.Traversed c done) (hc : c.Sound) :
    PhiCompletion.allPhis (g.withLive (g.kept false).live) = PhiCompletion.allPhis g := by
  rw [h.live_kept_eq hc]
  refine flatMap_filter_of_nil fun b hb hno => ?_
  have hnot : g.offset b ∉ done := of_decide_eq_false hno
  change (g.block b).phis.toList = []
  rw [(h.divided.unwalked b hb (by simp) hnot).phis_eq]

/-- What is on a walk to a block that was walked was walked. -/
theorem walked_of_walk (h : g.Traversed c done) {e : BlockId} {w : List BlockId}
    (hw : g.Walk e b w) (hb : g.offset b ∈ done) : ∀ x ∈ w, g.offset x ∈ done := by
  induction hw with
  | start =>
    intro x hx
    rwa [List.mem_singleton.1 hx]
  | step _ hp ih =>
    intro x hx
    rcases List.mem_cons.1 hx with rfl | hx
    · exact hb
    · exact ih (h.walked_of_mem_preds hp).2 x hx

theorem exists_walk (h : g.Traversed c done) (hc : c.Sound) {e : BlockId} (he : e ∈ g.live)
    (hzero : g.offset e = 0) (hb : b ∈ g.live) (ho : g.offset b ∈ done) : ∃ w, g.Walk e b w := by
  have hwalk : ∀ {path : List BlockId}, g.Trail e path → ∀ x rest, path = x :: rest →
      g.Walk e x path := by
    intro path htrail
    induction htrail with
    | entry =>
      rintro x rest ⟨⟩
      exact .start
    | step _ ha ih =>
      rintro x rest ⟨⟩
      exact .step (ih _ _ rfl) ((h.divided.wellFormed.edge_iff _ _).1 ha)
  obtain ⟨rest, htrail⟩ := h.exists_trail_to hc he hzero hb ho
  exact ⟨_, hwalk htrail b rest rfl⟩

end Graph.Traversed

/-! ## Dominators -/

/-- Of a block that was walked, the same dominators are kept with and without the dead blocks. -/
theorem Graph.Traversed.of_keptDominators {c : Code} {done : List Int} {g : Graph} {b : BlockId}
    (h : g.Traversed c done) (hc : c.Sound) (hb : b ∈ g.live) (ho : g.offset b ∈ done) :
    (g.keptDominators false).of b = (g.keptDominators true).of b := by
  rw [keptDominators, if_neg Bool.false_ne_true, keptDominators, if_pos rfl]
  have hwf := h.divided.wellFormed
  rw [Dominators.of_foldl_forget (show (Dominators.solve g).1.blocks.Nodup from hwf.ordered.nodup)]
  refine List.filter_eq_self.2 fun x hdom => decide_eq_true fun hdead => ?_
  obtain ⟨hx, hnot⟩ := (h.mem_deadBlocks_iff hc x).1 hdead
  obtain ⟨e, he, hzero⟩ := h.exists_entry
  obtain ⟨w, hw⟩ := h.exists_walk hc he hzero hb ho
  have hentry : g.entry? = some e := (hwf.ordered.find?_eq_some_iff 0).2 ⟨he, hzero⟩
  have hon := ((Dominators.mem_of_solve_iff hwf.ordered h.predsInside hb).1 hdom).2
  exact hnot (h.walked_of_walk hw ho x (hon e w hentry hw))

/-! ## The two lifts -/

namespace Lifter

/-- Whether the first of two lifts, which kept dead blocks, has what the second one has, and besides
only blank blocks at labels that control does not reach. -/
structure OnlyAddsDead (c : Code) (s s' : Lifter) : Prop where
  blocks_eq : s.graph.blocks = s'.graph.blocks
  definitions_eq : s.graph.definitions = s'.graph.definitions
  live_sublist : s'.graph.live.Sublist s.graph.live
  dominators : ∃ d d', s.dominators = some d ∧ s'.dominators = some d' ∧
    ∀ b ∈ s'.graph.live, d.of b = d'.of b
  dead_label : ∀ b ∈ s.graph.live, b ∉ s'.graph.live →
    s.graph.offset b ∈ c.labels ∧ ¬ c.Reaches (s.graph.offset b)
  dead_blank : ∀ b ∈ s.graph.live, b ∉ s'.graph.live →
    (s.graph.block b).code = [] ∧ (s.graph.block b).stack = [] ∧
      (s.graph.block b).terminator = none ∧ (s.graph.block b).preds = [] ∧
      (s.graph.block b).succs = []
  handoff : ∀ name args, ∃ f, Handoff.flatten name args s.graph = .ok f ∧
    Handoff.flatten name args s'.graph = .ok f

namespace Lifted

variable {c : Code} {done : List Int} {g : Graph} {s s' : Lifter} {b : BlockId}

/-- A block that was not walked is blank. -/
theorem blank_of_not_walked (h : Lifted c done g s) (hc : c.Sound) (hb : b ∈ g.live)
    (hnot : g.offset b ∉ done) :
    (s.graph.block b).code = [] ∧ (s.graph.block b).stack = [] ∧
      (s.graph.block b).terminator = none ∧ (s.graph.block b).preds = [] ∧
      (s.graph.block b).succs = [] := by
  have hunwalked := h.traversed.divided.unwalked b hb (by simp) hnot
  have hloop : c.isLoopBody done (g.offset b) = false :=
    Bool.eq_false_iff.2 fun hloop => hnot (h.traversed.mem_done_of_isLoopBody hc hloop)
  refine ⟨?_, ?_, ?_, ?_, ?_⟩
  · refine List.eq_nil_iff_forall_not_mem.2 fun v hv => hnot ?_
    exact ((h.mem_handedOver_iff hc b).1 (h.handedOver_of_mem_code hc hv)).2
  · obtain ⟨phis, hblock⟩ := h.block_eq b
    rw [hblock]
    exact (hunwalked.fresh hloop).2
  · rw [h.terminator_eq]
    exact hunwalked.terminator_eq
  · rw [h.preds_eq]
    refine List.eq_nil_iff_forall_not_mem.2 fun p hp => hnot ?_
    exact h.traversed.succs_done p b ((h.traversed.divided.wellFormed.edge_iff p b).2 hp)
  · rw [h.succs_eq]
    exact hunwalked.succs_eq

/-- The same blocks are handed over with and without the dead ones. -/
theorem handedOver_eq (h : Lifted c done g s) (h' : Lifted c done g s') (hc : c.Sound)
    (hkeep : s.options.keepDead = true) (hremove : s'.options.keepDead = false)
    (hblocks : s.graph.blocks = s'.graph.blocks) : s.graph.handedOver = s'.graph.handedOver := by
  have hlive : s.graph.live = g.live := by
    rw [h.feeding.live_eq, hkeep]
    rfl
  have hlive' : s'.graph.live = g.live.filter fun b => g.offset b ∈ done := by
    rw [h'.feeding.live_eq, hremove, h.traversed.live_kept_eq hc]
  have hsame : ∀ b, s'.graph.block b = s.graph.block b := fun b => by
    rw [Graph.block, Graph.block, hblocks]
  unfold Graph.handedOver
  rw [hlive', hlive, List.filter_filter]
  refine List.filter_congr fun b hb => ?_
  rw [hsame]
  cases hkept : Handoff.isKept (s.graph.block b) with
  | false => rfl
  | true =>
    have hover : b ∈ s.graph.handedOver := List.mem_filter.2 ⟨hlive ▸ hb, hkept⟩
    simp [((h.mem_handedOver_iff hc b).1 hover).2]

/-- Two lifts of the same walks that complete the same phis differ in the dead blocks only. -/
theorem onlyAddsDead (h : Lifted c done g s) (h' : Lifted c done g s') (hc : c.Sound)
    (hkeep : s.options.keepDead = true) (hremove : s'.options.keepDead = false)
    (hblocks : s.graph.blocks = s'.graph.blocks)
    (hdefinitions : s.graph.definitions = s'.graph.definitions) : OnlyAddsDead c s s' := by
  have hdead : ∀ b ∈ s.graph.live, b ∉ s'.graph.live → b ∈ g.live ∧ g.offset b ∉ done := by
    intro b hb hnot
    have hlive := ((h.mem_live_iff hc b).1 hb).1
    exact ⟨hlive, fun ho => hnot ((h'.mem_live_iff_walked hc hremove b).2 ⟨hlive, ho⟩)⟩
  refine ⟨hblocks, hdefinitions, ?_, ?_, ?_, ?_, ?_⟩
  · rw [h'.feeding.live_eq, hremove, h.traversed.live_kept_eq hc, h.feeding.live_eq, hkeep]
    exact List.filter_sublist
  · refine ⟨_, _, h.dominators_eq, h'.dominators_eq, fun b hb => ?_⟩
    obtain ⟨hlive, ho⟩ := (h'.mem_live_iff_walked hc hremove b).1 hb
    rw [hkeep, hremove]
    exact (h.traversed.of_keptDominators hc hlive ho).symm
  · intro b hb hnot
    rw [h.offset_eq, ← h'.offset_eq]
    refine (h'.mem_dead_iff hc hremove _).1 (List.mem_map_of_mem ?_)
    rw [h'.dead_eq hremove, h.traversed.mem_deadBlocks_iff hc]
    exact hdead b hb hnot
  · intro b hb hnot
    obtain ⟨hlive, ho⟩ := hdead b hb hnot
    exact h.blank_of_not_walked hc hlive ho
  · intro name args
    refine ⟨_, (h.deliverable hc).flatten_eq name args, ?_⟩
    have hsame : Handoff.blockOf s'.graph = Handoff.blockOf s.graph := by
      have hgraph : s'.graph = s.graph.withLive s'.graph.live := by
        rw [Graph.withLive, hblocks, hdefinitions]
      rw [hgraph]
      rfl
    rw [(h'.deliverable hc).flatten_eq name args, Handoff.functionOf, Handoff.functionOf,
      h.handedOver_eq h' hc hkeep hremove hblocks, hsame]

end Lifted

/-- After the same walks, the passes come to the same with and without the dead blocks. -/
theorem passes_with_dead {c : Code} {done : List Int} {s : Lifter} (hc : c.Sound)
    (h : s.graph.Traversed c done) (hcode : s.code = c) (hoptions : s.options.keepDead = false)
    (hsteps : s.steps = c.stepsOf done) :
    let passes := Lift.findDominators >>= fun _ => Lift.completePhis >>= fun _ => Lift.finish
    (∃ t t', passes (s.reading c { keepDead := true }) = .ok () t ∧ passes s = .ok () t' ∧
        OnlyAddsDead c t t') ∨
      ∃ stop t t', passes (s.reading c { keepDead := true }) = .error stop t ∧
        passes s = .error stop t' := by
  intro passes
  obtain ⟨t', r', hoptions', hgraph', hcases'⟩ := passes_completion hc h hcode hsteps
  obtain ⟨t, r, hoptions₁, hgraph, hcases⟩ :=
    passes_completion (s := s.reading c { keepDead := true }) hc h rfl hsteps
  -- the phis are completed in the same way, whatever the list of blocks is
  have hphis : (s.graph.kept false).completePhis (Lift.depthLimit c) =
      onState (.withLive (s.graph.kept false).live)
        ((s.graph.kept true).completePhis (Lift.depthLimit c)) := by
    rw [Graph.kept_eq]
    exact s.graph.completePhis_withLive _ _ (h.allPhis_kept hc)
  rw [hoptions] at hcases'
  rcases hcases with ⟨hr, hpasses, hlifted⟩ | ⟨-, e, b, slot, hr, hpasses, -⟩
  · -- where one completion succeeds the other does, and only the list of blocks differs
    rw [hphis, show (s.graph.kept true).completePhis _ = _ from hr] at hcases'
    rcases hcases' with ⟨hr', hpasses', hlifted'⟩ | ⟨-, e, b, slot, hr', -, -⟩
    · cases hr'
      refine .inl ⟨t, t', hpasses, hpasses', hlifted.onlyAddsDead hlifted' hc ?_ ?_ ?_ ?_⟩
      · rw [hoptions₁]
        rfl
      · rw [hoptions', hoptions]
      · rw [hgraph, hgraph']
        rfl
      · rw [hgraph, hgraph']
        rfl
    · cases hr'
  · rw [hphis, show (s.graph.kept true).completePhis _ = _ from hr] at hcases'
    rcases hcases' with ⟨hr', -, -⟩ | ⟨-, e', b', slot', hr', hpasses', -⟩
    · cases hr'
    · cases hr'
      exact .inr ⟨_, t, t', hpasses, hpasses'⟩

/-- Walks do not depend on whether dead blocks are kept. -/
theorem all_with_dead {c : Code} {s : Lifter} (hc : c.Sound)
    (hopened : IsOpened c { keepDead := false } s) (hstarted : s.started = false) :
    (∃ t t', Lift.all (s.reading c { keepDead := true }) = .ok () t ∧ Lift.all s = .ok () t' ∧
        OnlyAddsDead c t t') ∨
      ∃ stop t t', Lift.all (s.reading c { keepDead := true }) = .error stop t ∧
        Lift.all s = .error stop t' := by
  obtain rfl := hopened.code_eq
  have hopened' := hopened.start
  obtain ⟨hprogress, hrooted⟩ := hopened'.progress
  have hall := Lift.all_of_not_started hstarted
  have hall' := Lift.all_of_not_started (s := s.reading s.code { keepDead := true }) hstarted
  have hcheck := (Lift.ignores_checkSignature (c := s.code) (s := { s with started := true })
    s.code.signature { keepDead := true }).1
  have hmimics : Lift.Mimics s.code { keepDead := true }
      (Lift.traverse s.code.at? (Lift.traverseFuel s.code))
      (Lift.traverse s.code.at? (Lift.traverseFuel s.code)) { s with started := true } :=
    Lift.traverse_reading hc ⟨rfl, rfl, rfl, rfl, rfl, rfl⟩ (fun _ _ => rfl) hprogress
      hopened'.steps_eq
  have htraverse := hmimics.1
  rcases Lift.checkSignature_cases s.code.signature { s with started := true } with
    ⟨e, hstop⟩ | hpass
  · rw [hstop] at hcheck
    exact .inr ⟨_, _, _, hall'.trans (bind_of_error hcheck), hall.trans (bind_of_error hstop)⟩
  rw [hpass] at hcheck
  replace hall := hall.trans (bind_of_ok hpass)
  replace hall' := hall'.trans (bind_of_ok hcheck)
  cases hwalks : Lift.traverse s.code.at? (Lift.traverseFuel s.code) { s with started := true } with
  | error stop s₁ =>
    rw [hwalks] at htraverse
    exact .inr ⟨stop, _, s₁, hall'.trans (bind_of_error htraverse),
      hall.trans (bind_of_error hwalks)⟩
  | ok u s₁ =>
    rw [hwalks] at htraverse
    obtain ⟨done, hprogress₁, hrooted₁, hsteps₁, hoptions₁, hnone⟩ :=
      Lift.traverse_progress hc hprogress hrooted hopened'.steps_eq hwalks
    rw [hall.trans (bind_of_ok hwalks), hall'.trans (bind_of_ok htraverse)]
    refine passes_with_dead hc (hprogress₁.traversed hrooted₁ hnone) hprogress₁.code_eq ?_ hsteps₁
    rw [hoptions₁, hopened'.options_eq]

theorem OnlyAddsDead.tell {c : Code} {s s' : Lifter} (h : OnlyAddsDead c s s')
    (e e' : Trace.Event) : OnlyAddsDead c (s.tell e) (s'.tell e') :=
  ⟨h.blocks_eq, h.definitions_eq, h.live_sublist, h.dominators, h.dead_label, h.dead_blank,
    h.handoff⟩

/-- **Keeping dead blocks adds blank blocks at labels that control does not reach, and changes
nothing else.**  Both lifts succeed, or both stop for the same reason. -/
theorem lift_with_dead {l : Listing} {c : Code} (hsize : l.IsAddressable)
    (hbuild : l.build = .ok c) :
    (∃ s s', (ofCode c { keepDead := true }).lift = .ok () s ∧
        (ofCode c { keepDead := false }).lift = .ok () s' ∧ OnlyAddsDead c s s') ∨
      ∃ stop s s', (ofCode c { keepDead := true }).lift = .error stop s ∧
        (ofCode c { keepDead := false }).lift = .error stop s' := by
  have hc := Listing.sound_of_build hsize hbuild
  have hopened := (isOpened_ofCode c { keepDead := false }).opening
  rw [lift_eq, lift_eq]
  rcases all_with_dead hc hopened rfl with ⟨s, s', hall, hall', hadds⟩ | ⟨stop, s, s', hall, hall'⟩
  · refine .inl ⟨_, _, ?_, ?_, hadds.tell (.closes none) (.closes none)⟩
    · exact congrArg _ hall
    · exact congrArg _ hall'
  · exact .inr ⟨stop, _, _, congrArg _ hall, congrArg _ hall'⟩

/-- The loop has a dead block, which the first lift keeps and the second one removes. -/
theorem lift_loop_with_dead : Listing.loop.IsAddressable ∧ ∃ c s s', Listing.loop.build = .ok c ∧
    (ofCode c { keepDead := true }).lift = .ok () s ∧
    (ofCode c { keepDead := false }).lift = .ok () s' ∧ s'.dead = [2] ∧ OnlyAddsDead c s s' := by
  have hlifts : Listing.loop.lifts (·.dead == [2]) = true := by
    simp only [Listing.lifts, Lifter.lift, Lift.all, Code.getElem?_index]
    decide +kernel
  obtain ⟨c, s', hbuild, hlift, hdead⟩ := Listing.exists_of_lifts hlifts
  have hsize : Listing.loop.IsAddressable := by decide +kernel
  obtain ⟨s, t, hkeep, hremove, hadds⟩ | ⟨stop, s, t, -, hremove⟩ := lift_with_dead hsize hbuild
  · cases hlift.symm.trans hremove
    exact ⟨hsize, c, s, s', hbuild, hkeep, hremove, beq_iff_eq.1 hdead, hadds⟩
  · cases hlift.symm.trans hremove

end Lifter

end StackLift
