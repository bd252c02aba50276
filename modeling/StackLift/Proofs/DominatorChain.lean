/-
# Dominators form a chain

On the blocks that are reached from the entry, dominance is an order.  Of two blocks on every walk
to a third one, one is on every walk to the other: if there were walks to each of them around the
other, one of these could be continued to the third block past only one of the two.

* `Graph.Walk.exists_first` : walks up to the first visit to a block;
* `Graph.OnEveryWalk.antisymm`, `Graph.OnEveryWalk.total` : the order, by walks;
* `Dominators.Chain` : what it means for blocks to be a chain from one block to another;
* `Dominators.form_chains` : the dominators that are found, and the backbone, are chains.
-/
import StackLift.Proofs.DeadBlocks

namespace StackLift

/-! ## Walks -/

namespace Graph

variable {g : Graph} {e a a' b c : BlockId} {w w' : List BlockId}

theorem Walk.start_mem (h : g.Walk e b w) : e ∈ w := by
  induction h with
  | start => exact List.mem_cons_self
  | step _ _ ih => exact List.mem_cons_of_mem _ ih

/-- A walk comes to each of its blocks for a first time. -/
theorem Walk.exists_first (h : g.Walk e b w) (ha : a ∈ w) :
    ∃ w', g.Walk e a (a :: w') ∧ a ∉ w' ∧ a :: w' ⊆ w := by
  induction h with
  | start =>
    obtain rfl := List.mem_singleton.1 ha
    exact ⟨[], .start, List.not_mem_nil, List.Subset.refl _⟩
  | @step p b w hw hp ih =>
    by_cases hmem : a ∈ w
    · obtain ⟨w', hfirst, hnew, hsub⟩ := ih hmem
      exact ⟨w', hfirst, hnew, fun x hx => List.mem_cons_of_mem b (hsub hx)⟩
    · obtain rfl := (List.mem_cons.1 ha).resolve_right hmem
      exact ⟨w, hw.step hp, hmem, List.Subset.refl _⟩

/-- A walk can be taken so that it comes to its last block only once. -/
theorem Walk.exists_once (h : g.Walk e b w) : ∃ w', g.Walk e b (b :: w') ∧ b ∉ w' := by
  have hb : b ∈ w := by
    cases h <;> exact List.mem_cons_self
  obtain ⟨w', hfirst, hnew, -⟩ := h.exists_first hb
  exact ⟨w', hfirst, hnew⟩

/-- What is left out by a walk to one of two blocks, and by a walk to the other, is left out by a walk
to a block behind them. -/
theorem Walk.exists_around {v v' : List BlockId} (h : g.Walk e b w) (ha : a ∈ w)
    (hv : g.Walk e a v) (hav : a' ∉ v) (hv' : g.Walk e a' v') (hav' : a ∉ v') :
    ∃ u, g.Walk e b u ∧ (a ∉ u ∨ a' ∉ u) := by
  induction h with
  | start =>
    obtain rfl := List.mem_singleton.1 ha
    exact ⟨v, hv, .inr hav⟩
  | @step p b w hw hp ih =>
    by_cases hba : b = a
    · exact ⟨v, hba ▸ hv, .inr hav⟩
    · by_cases hba' : b = a'
      · exact ⟨v', hba' ▸ hv', .inl hav'⟩
      · -- the last step comes to neither of the two
        obtain ⟨u, hu, hout⟩ := ih ((List.mem_cons.1 ha).resolve_left fun hab => hba hab.symm)
        refine ⟨b :: u, hu.step hp, hout.imp ?_ ?_⟩
        · exact fun hnot => List.not_mem_cons_of_ne_of_not_mem (Ne.symm hba) hnot
        · exact fun hnot => List.not_mem_cons_of_ne_of_not_mem (Ne.symm hba') hnot

/-- A block that is not on every walk is left out by one. -/
theorem exists_walk_around (he : g.entry? = some e) (h : ¬ g.OnEveryWalk a b) :
    ∃ w, g.Walk e b w ∧ a ∉ w := by
  by_contra hnone
  apply h
  intro e' w he' hw
  obtain rfl : e' = e := Option.some.inj (he'.symm.trans he)
  by_contra hout
  exact hnone ⟨w, hw, hout⟩

namespace OnEveryWalk

theorem trans (hab : g.OnEveryWalk a b) (hbc : g.OnEveryWalk b c) : g.OnEveryWalk a c := by
  intro e w he hw
  obtain ⟨w', hfirst, -, hsub⟩ := hw.exists_first (hbc e w he hw)
  exact hsub (hab e _ he hfirst)

/-- Two blocks are not on every walk to each other: the first visit to one of them comes first. -/
theorem antisymm (hab : g.OnEveryWalk a b) (hba : g.OnEveryWalk b a) (he : g.entry? = some e)
    (hw : g.Walk e b w) : a = b := by
  obtain ⟨w', honce, hnew⟩ := hw.exists_once
  rcases List.mem_cons.1 (hab e _ he honce) with heq | hmem
  · exact heq
  · cases honce with
    | start => cases hmem
    | step hrest _ =>
      -- the walk has come to `a` before it comes to `b`
      obtain ⟨w'', hfirst, -, hsub⟩ := hrest.exists_first hmem
      exact absurd (hsub (hba e _ he hfirst)) hnew

/-- Of two blocks on every walk to a third one, one is on every walk to the other. -/
theorem total (hab : g.OnEveryWalk a b) (hab' : g.OnEveryWalk a' b) (he : g.entry? = some e)
    (hw : g.Walk e b w) : g.OnEveryWalk a a' ∨ g.OnEveryWalk a' a := by
  by_contra hneither
  rw [not_or] at hneither
  obtain ⟨v', hv', hav'⟩ := exists_walk_around he hneither.1
  obtain ⟨v, hv, hav⟩ := exists_walk_around he hneither.2
  obtain ⟨u, hu, hout⟩ := hw.exists_around (hab e w he hw) hv hav hv' hav'
  rcases hout with hnot | hnot
  · exact hnot (hab e u he hu)
  · exact hnot (hab' e u he hu)

end OnEveryWalk

/-- Whether a block of a graph is reached from the entry. -/
def Reachable (g : Graph) (b : BlockId) : Prop :=
  b ∈ g.live ∧ ∃ e w, g.entry? = some e ∧ g.Walk e b w

/-- What is on every walk to a block that is reached is reached. -/
theorem Reachable.of_onEveryWalk (h : g.Reachable b) (ha : a ∈ g.live)
    (hab : g.OnEveryWalk a b) : g.Reachable a := by
  obtain ⟨-, e, w, he, hw⟩ := h
  obtain ⟨w', hfirst, -, -⟩ := hw.exists_first (hab e w he hw)
  exact ⟨ha, e, _, he, hfirst⟩

end Graph

/-! ## Chains of dominators -/

namespace Dominators

/-- Whether dominance is an order on some blocks. -/
structure Orders (d : Dominators) (P : BlockId → Prop) : Prop where
  refl : ∀ a, P a → d.dominates a a = true
  trans : ∀ a b c, P a → P b → P c → d.dominates a b = true → d.dominates b c = true →
    d.dominates a c = true
  antisymm : ∀ a b, P a → P b → d.dominates a b = true → d.dominates b a = true → a = b

/-- Whether blocks are totally ordered by dominance, from the block `first` to the block `last`. -/
structure Chain (d : Dominators) (l : List BlockId) (first last : BlockId) : Prop
    extends Orders d (· ∈ l) where
  total : ∀ a ∈ l, ∀ b ∈ l, d.dominates a b = true ∨ d.dominates b a = true
  first_mem : first ∈ l
  last_mem : last ∈ l
  first_dominates : ∀ a ∈ l, d.dominates first a = true
  dominates_last : ∀ a ∈ l, d.dominates a last = true

/-- Being a chain is a matter of dominance between its blocks. -/
theorem Chain.congr {d d' : Dominators} {l : List BlockId} {first last : BlockId}
    (h : d.Chain l first last) (heq : ∀ a ∈ l, ∀ b ∈ l, d'.dominates a b = d.dominates a b) :
    d'.Chain l first last where
  refl a ha := by
    rw [heq a ha a ha]
    exact h.refl a ha
  trans a b c ha hb hc hab hbc := by
    rw [heq a ha b hb] at hab
    rw [heq b hb c hc] at hbc
    rw [heq a ha c hc]
    exact h.trans a b c ha hb hc hab hbc
  antisymm a b ha hb hab hba := by
    rw [heq a ha b hb] at hab
    rw [heq b hb a ha] at hba
    exact h.antisymm a b ha hb hab hba
  total a ha b hb := by
    rw [heq a ha b hb, heq b hb a ha]
    exact h.total a ha b hb
  first_mem := h.first_mem
  last_mem := h.last_mem
  first_dominates a ha := by
    rw [heq _ h.first_mem a ha]
    exact h.first_dominates a ha
  dominates_last a ha := by
    rw [heq a ha _ h.last_mem]
    exact h.dominates_last a ha

section

variable {g : Graph} (hord : g.Ordered) (hpred : g.PredsInside)
include hord hpred

/-- On the blocks that are reached, the dominance that is found is an order. -/
theorem orders_solve : (solve g).1.Orders g.Reachable where
  refl a ha := (dominates_solve_iff hord hpred ha.1 ha.1).2 (g.onEveryWalk_refl a)
  trans a b c ha hb hc hab hbc := by
    rw [dominates_solve_iff hord hpred ha.1 hb.1] at hab
    rw [dominates_solve_iff hord hpred hb.1 hc.1] at hbc
    exact (dominates_solve_iff hord hpred ha.1 hc.1).2 (hab.trans hbc)
  antisymm a b ha hb hab hba := by
    obtain ⟨hlive, e, w, he, hw⟩ := hb
    rw [dominates_solve_iff hord hpred ha.1 hlive] at hab
    rw [dominates_solve_iff hord hpred hlive ha.1] at hba
    exact hab.antisymm hba he hw

/-- The dominators of a block that is reached are a chain from the entry to the block. -/
theorem chain_of_solve {b e : BlockId} (hb : g.Reachable b) (he : g.entry? = some e) :
    (solve g).1.Chain ((solve g).1.of b) e b := by
  have hmem : ∀ a, a ∈ (solve g).1.of b ↔ a ∈ g.live ∧ g.OnEveryWalk a b :=
    fun a => mem_of_solve_iff hord hpred hb.1
  have hreach : ∀ a, a ∈ (solve g).1.of b → g.Reachable a := by
    intro a ha
    obtain ⟨hlive, hon⟩ := (hmem a).1 ha
    exact hb.of_onEveryWalk hlive hon
  have helive : e ∈ g.live := (Graph.offset_of_find?_eq_some he).1
  -- every walk starts at the entry
  have hentry : ∀ a, g.OnEveryWalk e a := by
    intro a e' w he' hw
    obtain rfl : e' = e := Option.some.inj (he'.symm.trans he)
    exact hw.start_mem
  have horders := orders_solve hord hpred
  refine ⟨⟨?_, ?_, ?_⟩, ?_, ?_, ?_, ?_, ?_⟩
  · intro a ha
    exact horders.refl a (hreach a ha)
  · intro a a' c ha ha' hc
    exact horders.trans a a' c (hreach a ha) (hreach a' ha') (hreach c hc)
  · intro a a' ha ha'
    exact horders.antisymm a a' (hreach a ha) (hreach a' ha')
  · intro a ha a' ha'
    obtain ⟨hlive, hon⟩ := (hmem a).1 ha
    obtain ⟨hlive', hon'⟩ := (hmem a').1 ha'
    obtain ⟨-, e', w, he', hw⟩ := hb
    rw [dominates_solve_iff hord hpred hlive hlive', dominates_solve_iff hord hpred hlive' hlive]
    exact hon.total hon' he' hw
  · exact (hmem e).2 ⟨helive, hentry b⟩
  · exact (hmem b).2 ⟨hb.1, g.onEveryWalk_refl b⟩
  · intro a ha
    exact (dominates_solve_iff hord hpred helive ((hmem a).1 ha).1).2 (hentry a)
  · intro a ha
    exact (dominates_solve_iff hord hpred ((hmem a).1 ha).1 hb.1).2 ((hmem a).1 ha).2

end

end Dominators

/-! ## The backbone -/

namespace Lifter.Lifted

variable {c : Code} {done : List Int} {g : Graph} {s : Lifter}

/-- After a lift that removed the dead blocks, all blocks are reached. -/
theorem reachable (h : Lifted c done g s) (hc : c.Sound) (hkeep : s.options.keepDead = false)
    {b : BlockId} (hb : b ∈ g.stripDead.2.live) : g.stripDead.2.Reachable b := by
  have hord := h.traversed.divided.wellFormed.ordered
  obtain ⟨e, he, hzero⟩ := h.traversed.exists_entry
  have hwalked : b ∈ g.live ∧ g.offset b ∈ done := by
    rw [← h.mem_live_iff_walked hc hkeep, h.feeding.live_eq, hkeep]
    exact hb
  obtain ⟨w, hw⟩ := h.traversed.exists_walk hc he hzero hwalked.1 hwalked.2
  refine ⟨hb, e, w, ?_, hw.congr g.block_stripDead⟩
  rw [hord.entry?_stripDead]
  exact hord.entry?_eq_some_iff.2 ⟨he, hzero⟩

/-- The backbone is a chain from the entry to the last block. -/
theorem chain_backbone (h : Lifted c done g s) (hc : c.Sound)
    (hkeep : s.options.keepDead = false) :
    ∃ d e z, s.dominators = some d ∧ s.graph.entry? = some e ∧ s.graph.last? = some z ∧
      d.Chain s.backbone e z := by
  have hwf := h.traversed.divided.wellFormed
  have hord := hwf.ordered
  have hpred := h.traversed.predsInside
  have hlive : s.graph.live = g.stripDead.2.live := by
    rw [h.feeding.live_eq, hkeep]
    rfl
  obtain ⟨e, he, hzero⟩ := h.traversed.exists_entry
  have hentry : g.entry? = some e := hord.entry?_eq_some_iff.2 ⟨he, hzero⟩
  -- there is a last block, since there is the entry
  obtain ⟨z, hz⟩ : ∃ z, g.stripDead.2.last? = some z := by
    have hmem : e ∈ g.stripDead.2.live :=
      (hord.stripDead.entry?_eq_some_iff.1 (hord.entry?_stripDead.trans hentry)).1
    exact ⟨_, List.getLast?_eq_some_getLast (List.ne_nil_of_mem hmem)⟩
  have hzlive : z ∈ g.stripDead.2.live := List.mem_of_getLast? hz
  have hchain := Dominators.chain_of_solve hord.stripDead (hpred.stripDead hord hwf.edge_iff)
    (h.reachable hc hkeep hzlive) (hord.entry?_stripDead.trans hentry)
  have hbackbone : s.backbone = (Dominators.solve g.stripDead.2).1.of z := by
    rw [h.backbone_eq, hkeep]
    refine (Dominators.backbone_foldl_forget_solve hord hpred hwf.edge_iff fun _ => .rfl).trans ?_
    rw [Dominators.backbone, hz]
  refine ⟨g.keptDominators false, e, z, by rw [h.dominators_eq, hkeep], ?_, ?_, ?_⟩
  · exact (h.entry?_eq_some_iff hc e).2 ⟨he, hzero⟩
  · rw [Graph.last?, hlive]
    exact hz
  · rw [hbackbone]
    refine hchain.congr fun a ha b hb => ?_
    have hinside : ∀ x ∈ (Dominators.solve g.stripDead.2).1.of z, x ∈ g.stripDead.2.live :=
      fun x hx => (Dominators.of_sublist _ z).subset hx
    exact Dominators.dominates_foldl_forget_solve hord hpred hwf.edge_iff (fun _ => .rfl)
      (hinside a ha) (hinside b hb)

end Lifter.Lifted

/-- On the blocks that are reached dominance is an order, and the dominators of each of them are a
chain from the entry to the block.  So the backbone of a function that was lifted is a chain from the
entry to the last block. -/
theorem Dominators.form_chains :
    (∀ g : Graph, g.Ordered → g.PredsInside → (solve g).1.Orders g.Reachable ∧
      ∀ b, g.Reachable b → ∃ e, g.entry? = some e ∧
        (solve g).1.Chain ((solve g).1.of b) e b) ∧
    ∀ (l : Listing) (c : Code) (options : LiftOptions) (s : Lifter), l.IsAddressable →
      l.build = .ok c → options.keepDead = false → (Lifter.ofCode c options).lift = .ok () s →
      ∃ d e z, s.dominators = some d ∧ s.graph.entry? = some e ∧ s.graph.last? = some z ∧
        d.Chain s.backbone e z := by
  constructor
  · intro g hord hpred
    refine ⟨orders_solve hord hpred, fun b hb => ?_⟩
    obtain ⟨e, w, he, -⟩ := hb.2
    exact ⟨e, he, chain_of_solve hord hpred hb he⟩
  · intro l c options s hsize hbuild hkeep hlift
    have hc := Listing.sound_of_build hsize hbuild
    obtain ⟨hoptions, done, g, h⟩ := Lifter.lift_ok hc hlift
    exact h.chain_backbone hc (hoptions ▸ hkeep)

/-- In a graph with a loop that is entered in two places, and in a function with a loop. -/
theorem Dominators.form_chains_tangle_loop : tangle.Ordered ∧ tangle.PredsInside ∧
    tangle.Reachable 3 ∧ (solve tangle).1.Chain [0, 2, 3] 0 3 ∧ Listing.loop.IsAddressable ∧
    ∃ c s d e z, Listing.loop.build = .ok c ∧ (Lifter.ofCode c {}).lift = .ok () s ∧
      s.dominators = some d ∧ s.backbone = [3, 0, 1] ∧ d.Chain [3, 0, 1] e z := by
  have hord : tangle.Ordered := by
    unfold Graph.Ordered
    decide
  have hpred : tangle.PredsInside := by
    unfold Graph.PredsInside
    decide
  have hreach : tangle.Reachable 3 := by
    refine ⟨by decide, 0, [3, 2, 0], by decide, ?_⟩
    exact ((Graph.Walk.start (e := 0)).step (b := 2) (by decide)).step (by decide)
  obtain ⟨-, hchains⟩ := form_chains.1 tangle hord hpred
  obtain ⟨e, he, hchain⟩ := hchains 3 hreach
  have hentry : tangle.entry? = some 0 := by decide
  have hof : (solve tangle).1.of 3 = [0, 2, 3] := by decide +kernel
  rw [hof, ← Option.some.inj (hentry.symm.trans he)] at hchain
  have hlifts : Listing.loop.lifts (·.backbone == [3, 0, 1]) = true := by
    simp only [Listing.lifts, Lifter.lift, Lift.all, Code.getElem?_index]
    decide +kernel
  obtain ⟨c, s, hbuild, hlift, hcheck⟩ := Listing.exists_of_lifts hlifts
  have hsize : Listing.loop.IsAddressable := by decide +kernel
  obtain ⟨d, e, z, hd, -, -, hbackbone⟩ := form_chains.2 _ c {} s hsize hbuild rfl hlift
  have hlist : s.backbone = [3, 0, 1] := beq_iff_eq.1 hcheck
  rw [hlist] at hbackbone
  exact ⟨hord, hpred, hreach, hchain, hsize, c, s, d, e, z, hbuild, hlift, hd, hlist, hbackbone⟩

end StackLift
