/-
# Forgetting removed blocks

The dominators of a graph are found once.  When its dead blocks are removed afterwards they are left
out of the sets, which are as if they had been found without those blocks: a dead block is on no
walk to another one.

* `Dominators.of_foldl_forget`, `Dominators.dominates_foldl_forget` : what forgetting leaves out;
* `Graph.onEveryWalk_stripDead_iff` : removing dead blocks changes no walks;
* `Dominators.forget_eq_solve` : forgetting them is finding the dominators without them.
-/
import StackLift.Proofs.Construction
import StackLift.Proofs.Passes

namespace StackLift

namespace Dominators

/-! ## What is left out -/

/-- A block that is forgotten is left out of the dominators of all blocks. -/
theorem of_forget {d : Dominators} (hnodup : d.blocks.Nodup) (x b : BlockId) :
    (d.forget x).of b = (d.of b).filter (· ≠ x) := by
  unfold forget
  split
  · rename_i n hn
    unfold of indexOf?
    dsimp only
    cases d.blocks.idxOf? b with
    | none => rfl
    | some i =>
      simp only [blocksIn, List.filter_map, List.filter_filter]
      refine congrArg _ (List.filter_congr ?_)
      rintro ⟨y, j⟩ hy
      -- one position is that of one block
      have hy := List.mk_mem_zipIdx_iff_getElem?.1 hy
      have hjn : j = n ↔ y = x := by
        constructor
        · rintro rfl
          exact Option.some.inj (hy.symm.trans (getElem?_of_idxOf? hn))
        · rintro rfl
          exact Option.some.inj ((position_of_getElem? hnodup hy).symm.trans hn)
      by_cases hyx : y = x <;> simp [BitSet.hasBit_setBit, hjn, hyx]
  · rename_i hn
    refine (List.filter_eq_self.2 fun a ha => ?_).symm
    have hx : x ∉ d.blocks := List.idxOf?_eq_none_iff.1 hn
    exact decide_eq_true fun hax => hx (hax ▸ (d.of_sublist b).subset ha)

theorem of_foldl_forget {d : Dominators} (hnodup : d.blocks.Nodup) (dead : List BlockId)
    (b : BlockId) : (dead.foldl forget d).of b = (d.of b).filter (· ∉ dead) := by
  induction dead generalizing d with
  | nil => simp
  | cons x dead ih =>
    have hblocks : (d.forget x).blocks = d.blocks := (d.foldl_forget [x]).1
    rw [List.foldl_cons, ih (by rwa [hblocks]), of_forget hnodup, List.filter_filter]
    refine List.filter_congr fun a _ => ?_
    simp [Bool.and_comm]

/-- A block that is forgotten dominates nothing, and the others dominate what they did before. -/
theorem dominates_forget (d : Dominators) (x a b : BlockId) :
    (d.forget x).dominates a b = (decide (a ≠ x) && d.dominates a b) := by
  unfold forget
  split
  · rename_i n hn
    unfold dominates indexOf? at *
    dsimp only
    cases hi : d.blocks.idxOf? a with
    | none => simp
    | some i =>
      have hin : i = n ↔ a = x := by
        constructor
        · rintro rfl
          exact Option.some.inj ((getElem?_of_idxOf? hi).symm.trans (getElem?_of_idxOf? hn))
        · rintro rfl
          exact Option.some.inj (hi.symm.trans hn)
      cases d.blocks.idxOf? b with
      | none => simp
      | some j => by_cases hax : a = x <;> simp [BitSet.hasBit_setBit, hin, hax]
  · rename_i hn
    by_cases hax : a = x
    · simp [dominates, hax, hn]
    · simp [hax]

theorem dominates_foldl_forget (d : Dominators) (dead : List BlockId) (a b : BlockId) :
    (dead.foldl forget d).dominates a b = (decide (a ∉ dead) && d.dominates a b) := by
  induction dead generalizing d with
  | nil => simp
  | cons x dead ih =>
    rw [List.foldl_cons, ih, dominates_forget]
    by_cases hax : a = x <;> simp [hax]

end Dominators

/-! ## Walks without dead blocks -/

namespace Graph

variable {g g' : Graph} {a b e : BlockId}

theorem Ordered.entry?_eq_some_iff (h : g.Ordered) :
    g.entry? = some e ↔ e ∈ g.live ∧ g.offset e = 0 := h.find?_eq_some_iff 0

/-- The entry is never removed. -/
theorem Ordered.entry?_stripDead (h : g.Ordered) : Graph.entry? g.stripDead.2 = g.entry? := by
  refine Option.ext fun e => ?_
  rw [h.stripDead.entry?_eq_some_iff, h.mem_live_stripDead, offset, block_stripDead,
    h.entry?_eq_some_iff, offset]
  constructor
  · rintro ⟨⟨hlive, -⟩, hzero⟩
    exact ⟨hlive, hzero⟩
  · rintro ⟨hlive, hzero⟩
    refine ⟨⟨hlive, fun hdead => ?_⟩, hzero⟩
    have hentry : g.entry? = some e := h.entry?_eq_some_iff.2 ⟨hlive, hzero⟩
    have hcheck := (List.mem_filter.1 hdead).2
    simp [hentry] at hcheck

/-- A block that leads to another one is not dead, so no predecessor is removed. -/
theorem PredsInside.stripDead (h : g.PredsInside) (hord : g.Ordered)
    (hedge : ∀ a b, b ∈ (g.block a).succs ↔ a ∈ (g.block b).preds) :
    g.stripDead.2.PredsInside := by
  intro b hb p hp
  rw [block_stripDead] at hp
  rw [hord.mem_live_stripDead] at hb ⊢
  refine ⟨h b hb.1 p hp, fun hdead => ?_⟩
  have hsucc := (hedge p b).2 hp
  have hcheck := (Bool.and_eq_true_iff.1 (List.mem_filter.1 hdead).2).2
  rw [Block.isDead, Bool.and_eq_true, List.isEmpty_iff, List.isEmpty_iff] at hcheck
  rw [hcheck.2] at hsucc
  cases hsucc

/-- Walks are made of blocks. -/
theorem Walk.congr {w : List BlockId} (hblock : ∀ a, g'.block a = g.block a)
    (h : g.Walk e b w) : g'.Walk e b w := by
  induction h with
  | start => exact .start
  | step _ hp ih => exact ih.step (by rwa [hblock])

theorem onEveryWalk_stripDead_iff (h : g.Ordered) (a b : BlockId) :
    g.stripDead.2.OnEveryWalk a b ↔ g.OnEveryWalk a b := by
  unfold OnEveryWalk
  rw [h.entry?_stripDead]
  constructor
  · intro hdom e w he hw
    exact hdom e w he (hw.congr g.block_stripDead)
  · intro hdom e w he hw
    exact hdom e w he (hw.congr fun a => (g.block_stripDead a).symm)

/-- Lists of blocks in ascending order of offset are the same if they have the same blocks. -/
theorem eq_of_ascending {l l' : List BlockId} (h : l.Pairwise fun a b => g.offset a < g.offset b)
    (h' : l'.Pairwise fun a b => g.offset a < g.offset b) (hmem : ∀ a, a ∈ l ↔ a ∈ l') :
    l = l' := by
  have hnodup := Ordered.nodup (g := { g with live := l }) h
  have hnodup' := Ordered.nodup (g := { g with live := l' }) h'
  refine List.Perm.eq_of_pairwise ?_ h h' ((List.perm_ext_iff_of_nodup hnodup hnodup').2 hmem)
  intro a b _ _ hab hba
  omega

end Graph

/-! ## Finding dominators again -/

namespace Dominators

section

variable {g : Graph} (hord : g.Ordered) (hpred : g.PredsInside)
  (hedge : ∀ a b, b ∈ (g.block a).succs ↔ a ∈ (g.block b).preds)
  {dead : List BlockId} (hdead : ∀ a, a ∈ dead ↔ a ∈ g.deadBlocks) {a b : BlockId}

include hord hpred hedge hdead

/-- Between blocks that are left, dominance is the one that is found without the others. -/
theorem dominates_foldl_forget_solve (ha : a ∈ g.stripDead.2.live) (hb : b ∈ g.stripDead.2.live) :
    (dead.foldl forget (solve g).1).dominates a b = (solve g.stripDead.2).1.dominates a b := by
  have ha' := (hord.mem_live_stripDead a).1 ha
  have hb' := (hord.mem_live_stripDead b).1 hb
  have hkept : a ∉ dead := fun hmem => ha'.2 ((hdead a).1 hmem)
  rw [dominates_foldl_forget, decide_eq_true hkept, Bool.true_and, Bool.eq_iff_iff,
    dominates_solve_iff hord hpred ha'.1 hb'.1,
    dominates_solve_iff hord.stripDead (hpred.stripDead hord hedge) ha hb,
    g.onEveryWalk_stripDead_iff hord]

/-- The dominators of a block that is left are those that are found without the others. -/
theorem of_foldl_forget_solve (hb : b ∈ g.stripDead.2.live) :
    (dead.foldl forget (solve g).1).of b = (solve g.stripDead.2).1.of b := by
  have hb' := (hord.mem_live_stripDead b).1 hb
  have hof : ((solve g).1.of b).Pairwise fun a c => g.offset a < g.offset c :=
    List.Pairwise.sublist (of_sublist _ b) hord
  have hof' : ((solve g.stripDead.2).1.of b).Pairwise fun a c =>
      g.stripDead.2.offset a < g.stripDead.2.offset c :=
    List.Pairwise.sublist (of_sublist _ b) hord.stripDead
  simp only [Graph.offset, g.block_stripDead] at hof'
  rw [of_foldl_forget (show (solve g).1.blocks.Nodup from hord.nodup)]
  refine Graph.eq_of_ascending (hof.sublist List.filter_sublist) hof' fun a => ?_
  rw [List.mem_filter, decide_eq_true_eq, hdead, mem_of_solve_iff hord hpred hb'.1,
    mem_of_solve_iff hord.stripDead (hpred.stripDead hord hedge) hb, hord.mem_live_stripDead,
    g.onEveryWalk_stripDead_iff hord, and_right_comm]

/-- The backbone is the one that is found without the others. -/
theorem backbone_foldl_forget_solve :
    (dead.foldl forget (solve g).1).backbone g.stripDead.2 =
      (solve g.stripDead.2).1.backbone g.stripDead.2 := by
  unfold backbone
  split
  · rename_i b hlast
    exact of_foldl_forget_solve hord hpred hedge hdead (List.mem_of_getLast? hlast)
  · rfl

end

/-- Forgetting the dead blocks of a graph, in whatever order, comes to the same as finding the
dominators again once they are removed.  All of this passes the checks. -/
theorem forget_eq_solve {g : Graph} (hbuilt : g.Built) (hpreds : g.PredsInside)
    {dead : List BlockId} (hdead : dead.Perm g.stripDead.1) :
    let g' := g.stripDead.2
    let d := dead.foldl forget (solve g).1
    let d' := (solve g').1
    g.removeDead = .ok g' ∧
      (g.live.length ≤ 9223372036854775808 →
        checkedSolve g = .ok (solve g) ∧ checkedSolve g' = .ok (solve g')) ∧
      d.checkedBackbone g' = .ok (d.backbone g') ∧ d'.checkedBackbone g' = .ok (d'.backbone g') ∧
      (∀ b ∈ g'.live, d.of b = d'.of b) ∧
      (∀ a ∈ g'.live, ∀ b ∈ g'.live, d.dominates a b = d'.dominates a b) ∧
      (∀ a ∈ g.stripDead.1, ∀ b, d.dominates a b = false) ∧
      d.backbone g' = d'.backbone g' := by
  have hord := hbuilt.regular.ordered
  have hedge := hbuilt.regular.edge_iff
  have hmem : ∀ a, a ∈ dead ↔ a ∈ g.deadBlocks := fun a => hdead.mem_iff
  have hpreds' := hpreds.stripDead hord hedge
  refine ⟨Graph.removeDead_eq hord.nodup, ?_, checkedBackbone_foldl_forget hord hpreds dead _,
    checkedBackbone_foldl_forget hord.stripDead hpreds' [] _, ?_, ?_, ?_, ?_⟩
  · intro hrange
    refine ⟨checkedSolve_eq hrange, checkedSolve_eq (Nat.le_trans ?_ hrange)⟩
    rw [g.stripDead_eq]
    exact (Graph.foldl_erase_sublist _).length_le
  · intro b hb
    exact of_foldl_forget_solve hord hpreds hedge hmem hb
  · intro a ha b hb
    exact dominates_foldl_forget_solve hord hpreds hedge hmem ha hb
  · intro a ha b
    rw [dominates_foldl_forget, decide_eq_false (not_not_intro ((hmem a).2 ha)), Bool.false_and]
  · exact backbone_foldl_forget_solve hord hpreds hedge hmem

/-- A graph with a dead block in the middle, one at the end, and between them one that is reached
from itself only and leads to the others. -/
def ruin : Graph :=
  let g := ((((Graph.empty.ensure 0).2.ensure 2).2.ensure 4).2.ensure 6).2
  let g := (g.ensure 8).2
  ((g.connect 0 1).connect 3 3).connect 3 1

theorem forget_eq_solve_ruin : ruin.Built ∧ ruin.PredsInside ∧ [4, 2].Perm ruin.stripDead.1 ∧
    (checkedSolve ruin = .ok (solve ruin) ∧
      checkedSolve ruin.stripDead.2 = .ok (solve ruin.stripDead.2)) ∧
    ([4, 2].foldl forget (solve ruin).1).of 1 = (solve ruin.stripDead.2).1.of 1 ∧
    ([4, 2].foldl forget (solve ruin).1).backbone ruin.stripDead.2 = [0, 1, 3] := by
  have hblocks := ((((Graph.Built.empty.ensure 0).ensure 2).ensure 4).ensure 6).ensure 8
  have hbuilt : ruin.Built :=
    ((hblocks.connect (b := 0) (n := 1) (by decide) (by decide)).connect (b := 3) (n := 3)
      (by decide) (by decide)).connect (b := 3) (n := 1) (by decide) (by decide)
  have hpreds : ruin.PredsInside := by
    unfold Graph.PredsInside
    decide
  have hdead : [4, 2].Perm ruin.stripDead.1 := by decide
  obtain ⟨-, hchecked, -, -, hof, -, -, hbackbone⟩ := forget_eq_solve hbuilt hpreds hdead
  refine ⟨hbuilt, hpreds, hdead, hchecked (by decide), hof 1 (by decide), hbackbone.trans ?_⟩
  decide +kernel

end Dominators

end StackLift
