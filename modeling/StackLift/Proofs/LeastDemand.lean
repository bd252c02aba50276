/-
# The least demand

A block needs an entry slot for what it takes itself, and for what a block behind it takes and does
not find on the stack.  The least numbers of slots that are enough for all blocks may be infinite:
a loop can take more than it pushes.

* `Graph.Covers` : numbers of slots that are enough;
* `Graph.demand` : the least ones;
* `Graph.Fulfills` : what holds of a graph in which each block has got as many;
* `Graph.Built.completePhis_fulfills` : completing phis makes it so whenever it can be.
-/
import Mathlib.Data.ENat.Lattice
import StackLift.Proofs.Completion
import StackLift.Proofs.Construction

namespace StackLift.Graph

variable {g g' : Graph} {b : BlockId} {n : BlockId → ℕ∞} {r : PhiCompletion.State}

/-! ## Numbers of slots -/

/-- Whether numbers of entry slots, finite or not, are enough for the blocks of a graph: for the
slots that they have, and for those that are passed on along the edges. -/
structure Covers (g : Graph) (n : BlockId → ℕ∞) : Prop where
  own : ∀ b ∈ g.live, ((g.block b).phis.size : ℕ∞) ≤ n b
  through : ∀ b ∈ g.live, ∀ s ∈ (g.block b).succs, s ∈ g.live →
    ((g.block b).stack.length : ℕ∞) < n s →
    ((g.block b).used : ℕ∞) + n s - ((g.block b).stack.length : ℕ∞) ≤ n b

/-- The least numbers of entry slots that are enough. -/
noncomputable def demand (g : Graph) : BlockId → ℕ∞ := sInf {n | g.Covers n}

theorem demand_le (h : g.Covers n) (b : BlockId) : g.demand b ≤ n b := by
  have hle : g.demand ≤ n := sInf_le h
  exact hle b

/-- What is below all numbers that are enough is below the least ones. -/
theorem le_demand {m : ℕ∞} (h : ∀ n, g.Covers n → m ≤ n b) : m ≤ g.demand b := by
  rw [demand, sInf_apply]
  apply le_iInf
  intro n
  exact h n.1 n.2

/-- The least numbers are enough, since being enough is kept where all of them are lowered at once. -/
theorem covers_demand (g : Graph) : g.Covers g.demand where
  own b hb := le_demand fun n hn => hn.own b hb
  through b hb s hs hlive hlt := by
    apply le_demand
    intro n hn
    have hle := demand_le hn s
    calc ((g.block b).used : ℕ∞) + g.demand s - ((g.block b).stack.length : ℕ∞)
        ≤ ((g.block b).used : ℕ∞) + n s - ((g.block b).stack.length : ℕ∞) :=
          tsub_le_tsub_right (add_le_add_right hle _) _
      _ ≤ n b := hn.through b hb s hs hlive (lt_of_lt_of_le hlt hle)

theorem isLeast_demand (g : Graph) : IsLeast {n | g.Covers n} g.demand :=
  ⟨g.covers_demand, fun _ hn b => demand_le hn b⟩

/-! ## Completing phis -/

/-- What holds of the graph `g'` that comes of the graph `g` when its phis are completed: each block
has as many as are needed, all of them are complete, and nothing but the phis has changed. -/
structure Fulfills (g g' : Graph) : Prop extends PhisOnly g g' where
  size_phis : ∀ b ∈ g.live, ((g'.block b).phis.size : ℕ∞) = g.demand b
  filled : ∀ b ∈ g.live, ∀ (k : Nat) v, (g'.block b).phis[k]? = some v → g'.SlotFilled b k v
  verified : g'.verifyPhis = .ok ()

section

variable (hedge : ∀ a b, b ∈ (g.block a).succs ↔ a ∈ (g.block b).preds)
include hedge

/-- Slots are passed on within numbers that are enough. -/
theorem Covers.passedOn (h : g.Covers n) :
    g.PassedOn fun b m => b ∈ g.live → (m : ℕ∞) ≤ n b where
  own := h.own
  mono b m k hm hle hb := le_trans (Nat.cast_le.2 hle) (hm hb)
  through b hb a ha m hm hlt halive := by
    have hslot : (m : ℕ∞) ≤ n b := hm hb
    have hless : ((g.block a).stack.length : ℕ∞) < n b := lt_of_lt_of_le (Nat.cast_lt.2 hlt) hslot
    calc (((g.block a).used + m - (g.block a).stack.length : ℕ) : ℕ∞)
        = ((g.block a).used : ℕ∞) + m - ((g.block a).stack.length : ℕ∞) := by
          rw [ENat.natCast_sub, Nat.cast_add]
      _ ≤ ((g.block a).used : ℕ∞) + n b - ((g.block a).stack.length : ℕ∞) :=
          tsub_le_tsub_right (add_le_add_right hslot _) _
      _ ≤ n a := h.through a halive b ((hedge a b).2 ha) hb hless

/-- While phis are completed, no block gets more slots than are needed. -/
theorem Filling.size_phis_le_demand {now : Option ValueId} (h : Filling g now g')
    (hb : b ∈ g.live) : ((g'.block b).phis.size : ℕ∞) ≤ g.demand b :=
  h.passed _ (g.covers_demand.passedOn hedge) b hb

/-- The slots of blocks are enough once all phis are complete: the last phi of a block takes
something from every predecessor. -/
theorem covers_of_completing (h : PhiCompletion.Completing g none r)
    (hempty : r.queue.toList = []) : g.Covers fun b => ((r.graph.block b).phis.size : ℕ∞) where
  own b _ := by
    have hle := size_le_of_getElem? (h.filling.phis_mono b)
    exact Nat.cast_le.2 hle
  through b hb s hs hlive hlt := by
    have hlt : (g.block b).stack.length < (r.graph.block s).phis.size := Nat.cast_lt.1 hlt
    have hlast : (r.graph.block s).phis.size - 1 < (r.graph.block s).phis.size := by omega
    obtain ⟨p, -, -, -, -, hall⟩ :=
      complete_of_completing h hempty hlive (Array.getElem?_eq_getElem hlast)
    rw [h.filling.preds_eq] at hall
    obtain ⟨x, -, hx⟩ := exists_incoming hall ((hedge b s).1 hs)
    have hdepth := lt_of_exit?_eq_some hx
    obtain ⟨phis, hblock⟩ := h.filling.fields b
    have hfields : (r.graph.block b).stack = (g.block b).stack ∧
        (r.graph.block b).used = (g.block b).used := by
      rw [hblock]
      exact ⟨rfl, rfl⟩
    rw [hfields.1, hfields.2] at hdepth
    have hle : (g.block b).used + (r.graph.block s).phis.size - (g.block b).stack.length ≤
        (r.graph.block b).phis.size := by omega
    rw [← Nat.cast_add, ← ENat.natCast_sub]
    exact Nat.cast_le.2 hle

theorem fulfills_of_completing (h : PhiCompletion.Completing g none r)
    (hempty : r.queue.toList = []) : g.Fulfills r.graph where
  toPhisOnly := h.filling.toPhisOnly
  size_phis b hb := by
    apply le_antisymm
    · exact h.filling.size_phis_le_demand hedge hb
    · exact demand_le (covers_of_completing hedge h hempty) b
  filled _ hb _ _ hv := slotFilled_of_completing h hempty hb hv
  verified := verifyPhis_of_completing h hempty

/-- A phi at which completing stops is one that its block needs, so the block has no predecessors or
the phi is below the limit. -/
theorem not_stuck {depth slot : Nat} {e : StackError} (h : Filling g none g') (hb : b ∈ g.live)
    (hle : g.demand b ≤ depth) (hzero : (g.block b).preds = [] → g.demand b = 0) :
    ¬ g'.Stuck depth b slot e := by
  have hsize := h.size_phis_le_demand hedge hb
  intro hstuck
  cases hstuck with
  | underflow hv hnil =>
    rw [h.preds_eq] at hnil
    rw [hzero hnil] at hsize
    have hslot := (Array.getElem?_eq_some_iff.1 hv).1
    have hnone : (g'.block b).phis.size = 0 := by exact_mod_cast le_antisymm hsize zero_le
    omega
  | tooDeep hv _ hdeep =>
    have hslot := (Array.getElem?_eq_some_iff.1 hv).1
    have hfew : (g'.block b).phis.size ≤ depth := Nat.cast_le.1 (le_trans hsize hle)
    omega

end

/-- Where all phis were completed, the blocks need no slot below the limit, and a block without
predecessors needs none. -/
theorem demand_le_of_completing {depth : Nat} (h : PhiCompletion.Completing g none r)
    (hempty : r.queue.toList = []) (hfulfills : g.Fulfills r.graph)
    (hsealed : ∀ k, r.graph.isSealed b k = true → k < depth) (hb : b ∈ g.live) :
    g.demand b ≤ depth ∧ ((g.block b).preds = [] → g.demand b = 0) := by
  rw [← hfulfills.size_phis b hb]
  rcases Nat.eq_zero_or_pos (r.graph.block b).phis.size with hzero | hpos
  · rw [hzero]
    exact ⟨zero_le, fun _ => rfl⟩
  · -- the last slot is complete
    have hlast : (r.graph.block b).phis.size - 1 < (r.graph.block b).phis.size := by omega
    obtain ⟨p, hp, -, hcomplete, hne, -⟩ :=
      complete_of_completing h hempty hb (Array.getElem?_eq_getElem hlast)
    have habove := hsealed _ ((isSealed_iff _ _ _).2
      ⟨_, p, Array.getElem?_eq_getElem hlast, hp, hcomplete⟩)
    constructor
    · exact Nat.cast_le.2 (by omega)
    · intro hnil
      rw [h.filling.preds_eq] at hne
      exact absurd hnil hne

/-- Completing the phis of a graph succeeds if and only if the least demand is met: no block needs
more slots than the limit allows, and a block without predecessors needs none.  Then each block has
as many slots as it needs, and all of them are filled; otherwise an error is told. -/
theorem Built.completePhis_fulfills (hbuilt : g.Built) (hpreds : g.PredsInside)
    (hopen : g.SlotsOpen) (depth : Nat) :
    IsLeast {n | g.Covers n} g.demand ∧
      ((∃ r, g.completePhis depth = .ok () r) ↔
        ∀ b ∈ g.live, g.demand b ≤ depth ∧ ((g.block b).preds = [] → g.demand b = 0)) ∧
      ((∃ r, g.completePhis depth = .ok () r ∧ g.Fulfills r.graph) ∨
        ∃ e r, g.completePhis depth = .error (.error e) r) := by
  have hcompletable := hbuilt.completable hpreds hopen
  have hedge := hbuilt.regular.edge_iff
  refine ⟨g.isLeast_demand, ?_⟩
  rcases hcompletable.completePhis_cases depth with ⟨r, hr, hsealed⟩ |
    ⟨e, r, hr, hfilling, -, b, hb, slot, hstuck⟩
  · obtain ⟨hcompleting, hempty⟩ := hcompletable.completePhis_ok hr
    have hfulfills := fulfills_of_completing hedge hcompleting hempty
    refine ⟨iff_of_true ⟨r, hr⟩ fun b hb => ?_, .inl ⟨r, hr, hfulfills⟩⟩
    refine demand_le_of_completing hcompleting hempty hfulfills (fun k hk => ?_) hb
    rcases hsealed b k hk with hlt | hold
    · rwa [Int.toNat_natCast] at hlt
    · -- no phi was complete before
      obtain ⟨v, p, hv, hp, hcomplete⟩ := (isSealed_iff g b k).1 hold
      rw [(hopen b hb v (Array.mem_of_getElem? hv) p hp).2] at hcomplete
      cases hcomplete
  · refine ⟨iff_of_false ?_ fun hbound => ?_, .inr ⟨e, r, hr⟩⟩
    · rintro ⟨r', hr'⟩
      rw [hr] at hr'
      cases hr'
    · exact not_stuck hedge hfilling hb (hbound b hb).1 (hbound b hb).2 hstuck

/-- A block that pushes two values, before a loop that replaces the upper one and looks at the
lower one. -/
def whirl : Graph :=
  let g := ((empty.ensure 0).2.ensure 4).2
  let g := (g.define 0 1 (some (.load "x"))).2.push 0 (some 0)
  let g := (g.define 0 2 (some (.load "y"))).2.push 0 (some 1)
  let g := ((g.pop 1 3).2.entrySlot 1 4 1).2.push 1 (some 0)
  (g.connect 0 1).connect 1 1

theorem built_whirl : whirl.Built := by
  have hblocks := ((Built.empty.ensure 0).ensure 4)
  have hfirst := (hblocks.define (b := 0) (by decide) 1 (some (.load "x"))).push (b := 0)
    (by decide) (some 0)
  have hsecond := (hfirst.define (b := 0) (by decide) 2 (some (.load "y"))).push (b := 0)
    (by decide) (some 1)
  have hloop := ((hsecond.pop (b := 1) (by decide) 3).entrySlot (b := 1) (by decide) 4 1).push
    (b := 1) (by decide) (some 0)
  exact (hloop.connect (b := 0) (n := 1) (by decide) (by decide)).connect (b := 1) (n := 1)
    (by decide) (by decide)

theorem predsInside_whirl : whirl.PredsInside := by
  unfold PredsInside
  decide

theorem slotsOpen_whirl : whirl.SlotsOpen := by
  unfold SlotsOpen
  decide

theorem demand_whirl : whirl.Built ∧ whirl.PredsInside ∧ whirl.SlotsOpen ∧
    whirl.demand 0 = 0 ∧ whirl.demand 1 = 2 := by
  refine ⟨built_whirl, predsInside_whirl, slotsOpen_whirl, ?_⟩
  obtain ⟨-, -, ⟨r, hr, hfulfills⟩ | ⟨e, r, hr⟩⟩ :=
    built_whirl.completePhis_fulfills predsInside_whirl slotsOpen_whirl 2
  · have hsize := hfulfills.size_phis
    rw [← afterCompletion_of_ok hr] at hsize
    have hentry : ((whirl.afterCompletion (2 : Nat)).block 0).phis.size = 0 := by decide +kernel
    have hloop : ((whirl.afterCompletion (2 : Nat)).block 1).phis.size = 2 := by decide +kernel
    rw [← hsize 0 (by decide), ← hsize 1 (by decide), hentry, hloop]
    exact ⟨rfl, rfl⟩
  · cases hr

end StackLift.Graph
