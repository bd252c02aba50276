/-
# Taking more than was pushed

A lift that succeeds makes sure that the machine with one stack finds enough on it, but for what it
takes at the entry.  The entry block has phis if and only if some path takes more than was pushed;
that goes unnoticed if something leads back to the entry.

* `Lifter.Lifted.enough_of_trail` : without phis of the entry there is always enough;
* `Lifter.Surveyed.exists_failing_trail` : where demanded slots are not there, a path fails;
* `Lifter.run_isSome_iff` : both together.
-/
import StackLift.Proofs.OneStack

namespace StackLift

/-- The stack of the machine is that of the block above what is left of the entry slots. -/
theorem Graph.Mirrors.length_stack {g : Graph} {b : BlockId} {looped : Bool} {n : Nat}
    {entry : List Token} {f : Flat} (h : g.Mirrors b looped n entry f) :
    f.stack.length = (g.block b).stack.length + (entry.length - (g.block b).used) := by
  obtain ⟨top, hstack, hall⟩ := h.stack
  rw [hstack, List.length_append, List.length_drop, hall.length_eq]

namespace Lifter.Surveyed

variable {c : Code} {done : List Int} {g : Graph} {s : Lifter} {e b : BlockId}
  {rest : List BlockId}

theorem phis_size_le (h : Surveyed c done g s) (b : BlockId) :
    (g.block b).phis.size ≤ (s.graph.block b).phis.size :=
  Graph.size_le_of_getElem? fun _ _ => h.phis_mono

/-- The machine gets through a block if the entry slots of the block are filled. -/
theorem run_of_enough (h : Surveyed c done g s) (hb : b ∈ g.live) (ho : g.offset b ∈ done)
    {f₀ : Flat} (hrest : s.run rest = some f₀)
    (henough : (s.graph.block b).phis.size ≤ f₀.stack.length) :
    ∃ f, s.run (b :: rest) = some f := by
  obtain ⟨i, t, iterator, hleft⟩ := h.traversed.walked hb ho
  rw [h.run_cons ho hrest]
  obtain ⟨f, hf, -⟩ := (hleft.finishes rest.length f₀.stack).1
    (Nat.le_trans (h.phis_size_le b) henough)
  exact ⟨f, hf⟩

/-- Where entry slots are demanded that are not filled, the machine fails on some path. -/
theorem exists_failing_trail (h : Surveyed c done g s) (he : e ∈ g.live) (hzero : g.offset e = 0)
    {n : Nat} (hdemands : g.Demands b n) (htrail : g.Trail e (b :: rest)) {f₀ : Flat}
    (hrest : s.run rest = some f₀) (hlt : f₀.stack.length < n) :
    ∃ path, g.Trail e path ∧ s.run path = none := by
  induction hdemands generalizing rest f₀ with
  | @own b n hown =>
    -- the block itself takes too much
    obtain ⟨hb, ho⟩ := h.walked_of_trail he hzero htrail
    obtain ⟨i, t, iterator, hleft⟩ := h.traversed.walked hb ho
    refine ⟨b :: rest, htrail, ?_⟩
    rw [h.run_cons ho hrest]
    exact (hleft.finishes rest.length f₀.stack).2 (Nat.lt_of_lt_of_le hlt hown)
  | @through b a m n _ ha hstack hn ih =>
    obtain ⟨hb, ho⟩ := h.walked_of_trail he hzero htrail
    cases hrun : s.run (b :: rest) with
    | none => exact ⟨b :: rest, htrail, hrun⟩
    | some f =>
      -- too little is left for the block behind it
      obtain ⟨f₁, -, -, -, hrest', -, hmirrors, -⟩ := h.visit_of_run hb ho hrun
      obtain rfl : f₁ = f₀ := Option.some.inj (hrest'.symm.trans hrest)
      have hused := h.traversed.divided.wellFormed.typed.used_le b
      have henough := hmirrors.enough
      have hlength := hmirrors.length_stack
      exact ih (.step htrail ha) hrun (by omega)

end Lifter.Surveyed

/-- If the entry has no phis, the entry slots of every block on a path are filled. -/
theorem Lifter.Lifted.enough_of_trail {c : Code} {done : List Int} {g : Graph} {s : Lifter}
    {e b : BlockId} {rest : List BlockId} (h : Lifted c done g s) (hc : c.Sound) (he : e ∈ g.live)
    (hzero : g.offset e = 0) (hphis : (s.graph.block e).phis = #[]) {path : List BlockId}
    (htrail : g.Trail e path) (hpath : path = b :: rest) :
    ∃ f₀, s.run rest = some f₀ ∧ (s.graph.block b).phis.size ≤ f₀.stack.length := by
  induction htrail generalizing b rest with
  | entry =>
    cases hpath
    exact ⟨_, rfl, by rw [hphis]; exact Nat.le_refl 0⟩
  | @step a b' rest' htrail ha ih =>
    cases hpath
    obtain ⟨ha', hao⟩ := h.walked_of_trail he hzero htrail
    obtain ⟨f₀, hrest, henough⟩ := ih rfl
    obtain ⟨f, hrun⟩ := h.run_of_enough ha' hao hrest henough
    refine ⟨f, hrun, Nat.le_of_not_lt fun hlt => ?_⟩
    -- a slot that is not filled would have got something from the block before
    obtain ⟨p, x, -, -, hexit⟩ := h.exists_incoming hc ha (Array.getElem?_eq_getElem hlt)
    obtain ⟨f₁, -, -, -, hrest', -, hmirrors, -⟩ := h.visit_of_run ha' hao hrun
    obtain rfl : f₁ = f₀ := Option.some.inj (hrest'.symm.trans hrest)
    have hslot := Graph.lt_of_exit?_eq_some hexit
    have hstack := hmirrors.length_stack
    obtain ⟨phis, hblock⟩ := h.block_eq a
    rw [hblock] at hslot henough
    dsimp only at hslot henough
    omega

/-! ## All paths -/

/-- The machine finds enough on its stack on all paths, if and only if the entry block has no phis.
It has none unless something leads back to it. -/
theorem Lifter.run_isSome_iff {l : Listing} {c : Code} {options : LiftOptions} {s : Lifter}
    (hsize : l.IsAddressable) (hbuild : l.build = .ok c)
    (hlift : (Lifter.ofCode c options).lift = .ok () s) :
    ∃ e, s.graph.entry? = some e ∧
      ((∀ path, s.graph.Trail e path → (s.run path).isSome = true) ↔
        (s.graph.block e).phis = #[]) ∧
      ((s.graph.block e).preds = [] → (s.graph.block e).phis = #[]) := by
  have hc := Listing.sound_of_build hsize hbuild
  obtain ⟨-, done, g, h⟩ := Lifter.lift_ok hc hlift
  obtain ⟨e, he, hzero⟩ := h.traversed.exists_entry
  have hentry := (h.entry?_eq_some_iff hc e).2 ⟨he, hzero⟩
  refine ⟨e, hentry, ⟨fun hall => ?_, fun hphis path htrail => ?_⟩, fun hpreds => ?_⟩
  · -- the phis of the entry are demanded, and nothing is there to fill them
    by_contra hne
    have hdemands := (h.feeding.demanded e).of_blocks_eq (g := g) (by rw [Graph.kept_eq])
    obtain ⟨path, htrail, hnone⟩ := h.exists_failing_trail he hzero hdemands .entry rfl
      (Array.size_pos_iff.2 hne)
    have hsome := hall path (h.trail_iff.2 htrail)
    rw [hnone] at hsome
    cases hsome
  · have htrail := h.trail_iff.1 htrail
    cases hpath : path with
    | nil =>
      rw [hpath] at htrail
      cases htrail
    | cons b rest =>
      obtain ⟨f₀, hrest, henough⟩ := h.enough_of_trail hc he hzero hphis htrail hpath
      obtain ⟨hb, ho⟩ := h.walked_of_trail he hzero (hpath ▸ htrail)
      obtain ⟨f, hrun⟩ := h.run_of_enough hb ho hrest henough
      rw [hrun]
      rfl
  · by_contra hne
    have hlive := (Graph.offset_of_find?_eq_some hentry).1
    have hslot := Array.getElem?_eq_getElem (Array.size_pos_iff.2 hne)
    exact (h.feeding.incoming h.verified hlive hslot).1 hpreds

/-- Nothing leads back to the entry of the loop, so there is always enough. -/
theorem Lifter.run_isSome_loop : Listing.loop.IsAddressable ∧ ∃ c s, Listing.loop.build = .ok c ∧
    (Lifter.ofCode c {}).lift = .ok () s ∧ s.graph.entry? = some 3 ∧
    ∀ path, s.graph.Trail 3 path → (s.run path).isSome = true := by
  have hlifts : Listing.loop.lifts (fun s => s.graph.entry? = some 3 ∧
      (s.graph.block 3).preds = []) = true := by
    simp only [Listing.lifts, Lifter.lift, Lift.all, Code.getElem?_index]
    decide +kernel
  obtain ⟨c, s, hbuild, hlift, hcheck⟩ := Listing.exists_of_lifts hlifts
  obtain ⟨hentry, hpreds⟩ := of_decide_eq_true hcheck
  have hsize : Listing.loop.IsAddressable := by decide +kernel
  obtain ⟨e, he, hiff, hphis⟩ := Lifter.run_isSome_iff hsize hbuild hlift
  obtain rfl : 3 = e := Option.some.inj (hentry.symm.trans he)
  exact ⟨hsize, c, s, hbuild, hlift, hentry, hiff.2 (hphis hpreds)⟩

/-- A function that takes a value it was not given and then begins again. -/
def Listing.again : Listing where
  name := "f"
  code := "UNARY_NOT\nJUMP_ABSOLUTE 0\n"

/-- A function can be lifted although it takes more than was pushed right at its entry. -/
theorem Lifter.lift_of_underflow : ∃ c s, Listing.again.build = .ok c ∧
    (Lifter.ofCode c {}).lift = .ok () s ∧ s.graph.entry? = some 0 ∧ s.graph.Trail 0 [0] ∧
    s.run [0] = none := by
  have hlifts : Listing.again.lifts (fun s => s.graph.entry? = some 0 ∧
      (s.run [0]).isSome = false) = true := by
    simp only [Listing.lifts, Lifter.lift, Lift.all, Code.getElem?_index]
    decide +kernel
  obtain ⟨c, s, hbuild, hlift, hcheck⟩ := Listing.exists_of_lifts hlifts
  obtain ⟨hentry, hnone⟩ := of_decide_eq_true hcheck
  exact ⟨c, s, hbuild, hlift, hentry, .entry,
    Option.isNone_iff_eq_none.1 (Option.isSome_eq_false_iff.1 hnone)⟩

end StackLift
