/-
# Checks that always pass

Finding dominators and removing dead blocks goes by operations that refuse what they are not made
for.  They refuse nothing in a graph whose blocks can be counted by keys, so they give what the same
computations give without checks.

* `Dominators.checkedSolve_eq` : sets are met with sets of the same base, at positions there are;
* `Dominators.checkedBackbone_eq` : the keys of a set are positions;
* `Dominators.solve_exact` : what is found, with or without checks, are the blocks on every walk;
* `Graph.removeDead_eq` : a block that is removed has no edges and is there.
-/
import StackLift.DeadBlocks
import StackLift.Proofs.Dominators

namespace StackLift

/-! ## Dominators -/

namespace Dominators

open BitSet

/-- Whether there are sets for `n` positions, all with the base zero. -/
structure Seated (n : Nat) (sets : Array BitSet) : Prop where
  size_eq : sets.size = n
  base_eq : ∀ i, (setAt sets i).base = 0

theorem setFor_of_lt {sets : Array BitSet} {i : Nat} (h : i < sets.size) :
    setFor sets i = .ok (setAt sets i) := by
  rw [setFor, setAt, Array.getD_eq_getD_getElem?, Array.getElem?_eq_getElem h]
  rfl

theorem seated_start (g : Graph) : Seated g.live.length (start g) := by
  refine ⟨by simp [start], fun i => ?_⟩
  by_cases hi : i < g.live.length
  · rw [setAt_start (List.getElem?_eq_getElem hi)]
    split <;> rfl
  · rw [setAt, Array.getD_eq_getD_getElem?, Array.getElem?_eq_none (by simp [start]; omega)]
    rfl

section

variable {n : Nat} {sets : Array BitSet} {i : Nat} {preds : List Nat}

/-- Sets of the base zero can be met. -/
theorem foldlM_meetWith (h : Seated n sets) (hpreds : ∀ p ∈ preds, p < n) {s : BitSet}
    (hs : s.base = 0) : preds.foldlM (meetWith sets) s =
      .ok (preds.foldl (fun s q => s.interBits (setAt sets q)) s) := by
  induction preds generalizing s with
  | nil => rfl
  | cons p preds ih =>
    have hstep : meetWith sets s p = .ok (s.interBits (setAt sets p)) := by
      rw [meetWith, setFor_of_lt (h.size_eq ▸ hpreds p List.mem_cons_self)]
      change s.inter (setAt sets p) = _
      rw [BitSet.inter, BitSet.sameBase, if_pos (hs.trans (h.base_eq p).symm)]
    rw [List.foldlM_cons, hstep, List.foldl_cons]
    exact ih (fun q hq => hpreds q (List.mem_cons_of_mem _ hq)) hs

theorem base_meet (h : Seated n sets) (i : Nat) (preds : List Nat) :
    (meet sets i preds).base = 0 := by
  have hfold : ∀ (preds : List Nat) (s : BitSet),
      (preds.foldl (fun s q => s.interBits (setAt sets q)) s).base = s.base := by
    intro preds
    induction preds with
    | nil => exact fun s => rfl
    | cons p preds ih => exact fun s => ih _
  cases preds with
  | nil => exact h.base_eq i
  | cons p preds => exact (hfold preds _).trans (h.base_eq p)

theorem checkedMeet_eq (h : Seated n sets) (hrange : n ≤ 9223372036854775808) (hi : i < n)
    (hpreds : ∀ p ∈ preds, p < n) : checkedMeet sets i preds = .ok (meet sets i preds) := by
  cases preds with
  | nil => exact setFor_of_lt (h.size_eq ▸ hi)
  | cons p preds =>
    have hbase : (preds.foldl (fun s q => s.interBits (setAt sets q)) (setAt sets p)).base = 0 :=
      base_meet h i (p :: preds)
    rw [checkedMeet, setFor_of_lt (h.size_eq ▸ hpreds p List.mem_cons_self)]
    change (preds.foldlM (meetWith sets) (setAt sets p) >>= fun s => withKey s i) = _
    rw [foldlM_meetWith h (fun q hq => hpreds q (List.mem_cons_of_mem _ hq)) (h.base_eq p)]
    change withKey _ i = _
    rw [withKey, BitSet.insert_of_inRange hbase (k := i) ⟨by omega, by omega⟩]
    rfl

/-- Bringing a set up to date leaves sets at all positions. -/
theorem Seated.update (h : Seated n sets) (hi : i < n) (preds : List Nat) :
    Seated n (sets.setIfInBounds i (meet sets i preds)) := by
  refine ⟨by rw [Array.size_setIfInBounds, h.size_eq], fun k => ?_⟩
  rw [setAt_setIfInBounds _ _ _ _ (h.size_eq ▸ hi)]
  split
  · exact base_meet h i preds
  · exact h.base_eq k

/-- A sweep over rows of positions passes all checks. -/
theorem checkedSweep_eq {rows : List (Nat × List Nat)} (hrange : n ≤ 9223372036854775808)
    (hrows : ∀ row ∈ rows, row.1 < n ∧ ∀ p ∈ row.2, p < n) (h : Seated n sets) :
    checkedSweep sets rows = .ok (sweep sets rows) ∧ Seated n (sweep sets rows).1 := by
  induction rows generalizing sets with
  | nil => exact ⟨rfl, h⟩
  | cons row rows ih =>
    obtain ⟨i, preds⟩ := row
    obtain ⟨hi, hpreds⟩ := hrows (i, preds) List.mem_cons_self
    have hrest := fun row hrow => hrows row (List.mem_cons_of_mem _ hrow)
    have hequal : (meet sets i preds).equal (setAt sets i) =
        .ok ((meet sets i preds).sameBits (setAt sets i)) := by
      rw [BitSet.equal, BitSet.sameBase, if_pos ((base_meet h i preds).trans (h.base_eq i).symm)]
    rw [checkedSweep, checkedMeet_eq h hrange hi hpreds, sweep]
    change (setFor sets i >>= _) = _ ∧ _
    rw [setFor_of_lt (h.size_eq ▸ hi)]
    change ((meet sets i preds).equal (setAt sets i) >>= _) = _ ∧ _
    rw [hequal]
    change (if _ then _ else _) = _ ∧ _
    by_cases hsame : (meet sets i preds).sameBits (setAt sets i) = true
    · simp only [if_pos hsame]
      exact ih hrest h
    · obtain ⟨heq, hseated⟩ := ih hrest (h.update hi preds)
      simp only [if_neg hsame, heq]
      exact ⟨rfl, hseated⟩

theorem checkedIterate_eq {rows : List (Nat × List Nat)} (hrange : n ≤ 9223372036854775808)
    (hrows : ∀ row ∈ rows, row.1 < n ∧ ∀ p ∈ row.2, p < n) (fuel : Nat) (h : Seated n sets) :
    checkedIterate rows sets fuel = .ok (iterate rows sets fuel) := by
  induction fuel generalizing sets with
  | zero => rfl
  | succ fuel ih =>
    obtain ⟨heq, hseated⟩ := checkedSweep_eq hrange hrows h
    rw [checkedIterate, heq, iterate_succ]
    change (if _ then _ else _) = _
    split
    · rw [ih hseated]
      rfl
    · rfl

end

/-- The rows of a graph are made of positions. -/
theorem lt_of_mem_rows {g : Graph} {row : Nat × List Nat} (hrow : row ∈ rows g) :
    row.1 < g.live.length ∧ ∀ p ∈ row.2, p < g.live.length := by
  obtain ⟨i, preds⟩ := row
  obtain ⟨b, hb, -, rfl⟩ := (mem_rows_iff g i preds).1 hrow
  have hi : i < g.live.length := (List.getElem?_eq_some_iff.1 hb).1
  refine ⟨hi, fun p hp => ?_⟩
  obtain ⟨a, -, rfl⟩ := List.mem_map.1 hp
  by_cases ha : a ∈ g.live
  · exact (List.getElem?_eq_some_iff.1 (getElem?_position ha)).1
  · -- a block outside the graph counts as the first one
    rw [position, List.idxOf?_eq_none_iff.2 ha]
    exact Nat.lt_of_le_of_lt (Nat.zero_le i) hi

/-- Solving passes all checks. -/
theorem checkedSolve_eq {g : Graph} (hrange : g.live.length ≤ 9223372036854775808) :
    checkedSolve g = .ok (solve g) := by
  rw [checkedSolve, checkedIterate_eq hrange (fun _ => lt_of_mem_rows) _ (seated_start g)]
  rfl

/-- The backbone is found where the keys of the sets are positions. -/
theorem checkedBackbone_eq {d : Dominators} {g : Graph} (hsize : d.sets.size = d.blocks.length)
    (hbounded : ∀ i j, bit d.sets i j = true → j < d.blocks.length) :
    d.checkedBackbone g = .ok (d.backbone g) := by
  unfold checkedBackbone backbone
  cases g.last? with
  | none => rfl
  | some b =>
    cases hi : d.indexOf? b with
    | none => simp [of, hi]
    | some i =>
      have hlt : i < d.sets.size := by
        rw [hsize]
        exact (List.getElem?_eq_some_iff.1 (getElem?_of_idxOf? hi)).1
      have hall : (setAt d.sets i).bits.all (· < d.blocks.length) = true := by
        rw [List.all_eq_true]
        exact fun j hj => decide_eq_true (hbounded i j ((mem_bits_iff _ j).1 hj))
      simp only [Option.bind_some, hi, of]
      rw [setFor_of_lt hlt]
      change (if _ then _ else _) = _
      rw [if_pos hall]

/-- Forgetting blocks leaves all sets as they are. -/
theorem foldl_forget (d : Dominators) (dead : List BlockId) :
    (dead.foldl forget d).blocks = d.blocks ∧ (dead.foldl forget d).sets = d.sets := by
  induction dead generalizing d with
  | nil => exact ⟨rfl, rfl⟩
  | cons b dead ih =>
    have hforget : (d.forget b).blocks = d.blocks ∧ (d.forget b).sets = d.sets := by
      unfold forget
      split <;> exact ⟨rfl, rfl⟩
    exact ⟨(ih _).1.trans hforget.1, (ih _).2.trans hforget.2⟩

/-- The backbone is found from the sets of a graph, whatever blocks were forgotten since. -/
theorem checkedBackbone_foldl_forget {g : Graph} (hord : g.Ordered) (hpred : g.PredsInside)
    (dead : List BlockId) (g' : Graph) :
    (dead.foldl forget (solve g).1).checkedBackbone g' =
      .ok ((dead.foldl forget (solve g).1).backbone g') := by
  obtain ⟨hblocks, hsets⟩ := foldl_forget (solve g).1 dead
  have happrox := (approximation_solve hord hpred).1
  refine checkedBackbone_eq ?_ ?_
  · rw [hblocks, hsets]
    exact happrox.size
  · rw [hblocks, hsets]
    exact happrox.bounded

/-- The sweeps over a graph come to an end and pass all checks, and the sets they end with hold for
each block the blocks on every walk from the entry to it. -/
theorem solve_exact (g : Graph) (hord : g.Ordered) (hpred : g.PredsInside) :
    (g.live.length ≤ 9223372036854775808 → checkedSolve g = .ok (solve g)) ∧
      (solve g).2.getLast? = some false ∧
      (∀ a ∈ g.live, ∀ b ∈ g.live,
        (solve g).1.dominates a b = true ↔ g.OnEveryWalk a b) ∧
      ∀ b ∈ g.live, ((solve g).1.of b).Pairwise (fun a a' => g.offset a < g.offset a') ∧
        ∀ a, a ∈ (solve g).1.of b ↔ a ∈ g.live ∧ g.OnEveryWalk a b := by
  refine ⟨checkedSolve_eq, (approximation_solve hord hpred).2.2, ?_, ?_⟩
  · intro a ha b hb
    exact dominates_solve_iff hord hpred ha hb
  · intro b hb
    exact ⟨List.Pairwise.sublist (of_sublist _ b) hord,
      fun a => mem_of_solve_iff hord hpred hb⟩

/-- A loop that is entered in two places, an edge back to the entry, and a block that is only
reached from itself. -/
def tangle : Graph where
  blocks := #[{ offset := 0, preds := [3] }, { offset := 3, preds := [0, 2] },
    { offset := 6, preds := [0, 1] }, { offset := 9, preds := [2] }, { offset := 12, preds := [4] }]
  live := [0, 1, 2, 3, 4]

theorem onEveryWalk_tangle :
    tangle.Ordered ∧ tangle.PredsInside ∧ checkedSolve tangle = .ok (solve tangle) ∧
      tangle.OnEveryWalk 2 3 ∧ ¬ tangle.OnEveryWalk 1 2 ∧ tangle.OnEveryWalk 1 4 := by
  have hord : tangle.Ordered := by
    unfold Graph.Ordered
    decide
  have hpred : tangle.PredsInside := by
    unfold Graph.PredsInside
    decide
  obtain ⟨hchecked, -, hdom, -⟩ := solve_exact tangle hord hpred
  refine ⟨hord, hpred, hchecked (by decide), ?_, fun h => ?_, ?_⟩
  · exact (hdom 2 (by decide) 3 (by decide)).1 (by decide +kernel)
  · exact absurd ((hdom 1 (by decide) 2 (by decide)).2 h) (by decide +kernel)
  · exact (hdom 1 (by decide) 4 (by decide)).1 (by decide +kernel)

end Dominators

/-! ## Dead blocks -/

namespace Graph

/-- Blocks without edges can be removed one after the other. -/
theorem foldlM_remove {g : Graph} {dead : List BlockId} (hnodup : dead.Nodup)
    (hdead : ∀ b ∈ dead, b ∈ g.live ∧ (g.block b).isDead = true) :
    dead.foldlM remove g = .ok (dead.foldl discard g) := by
  induction dead generalizing g with
  | nil => rfl
  | cons b dead ih =>
    obtain ⟨hb, hnodup⟩ := List.nodup_cons.1 hnodup
    obtain ⟨hlive, hisDead⟩ := hdead b List.mem_cons_self
    have hremove : g.remove b = .ok (g.discard b) := by
      rw [remove, if_pos hisDead, if_pos hlive]
    rw [List.foldlM_cons, hremove, List.foldl_cons]
    refine ih hnodup fun a ha => ?_
    obtain ⟨halive, haDead⟩ := hdead a (List.mem_cons_of_mem _ ha)
    have hne : a ≠ b := fun heq => hb (heq ▸ ha)
    exact ⟨(List.mem_erase_of_ne hne).2 halive, haDead⟩

/-- The dead blocks can be removed. -/
theorem removeDead_eq {g : Graph} (hnodup : g.live.Nodup) : g.removeDead = .ok g.stripDead.2 := by
  refine foldlM_remove (hnodup.filter _) fun b hb => ?_
  obtain ⟨hlive, hcheck⟩ := List.mem_filter.1 hb
  exact ⟨hlive, (Bool.and_eq_true_iff.1 hcheck).2⟩

/-- There are not more blocks than offsets. -/
theorem Ordered.length_live_le {g : Graph} (h : g.Ordered)
    (hrange : ∀ b ∈ g.live, BitSet.InRange (g.offset b)) :
    g.live.length ≤ 9223372036854775808 := by
  have key : ∀ (l : List BlockId) (m : Int), m ≤ 9223372036854775808 →
      l.Pairwise (fun a b => g.offset a < g.offset b) →
      (∀ b ∈ l, m ≤ g.offset b ∧ g.offset b < 9223372036854775808) →
      m + l.length ≤ 9223372036854775808 := by
    intro l
    induction l with
    | nil => exact fun m hm _ _ => by simpa using hm
    | cons a l ih =>
      intro m hm hpair hall
      obtain ⟨ha, hpair⟩ := List.pairwise_cons.1 hpair
      obtain ⟨hle, hlt⟩ := hall a List.mem_cons_self
      have := ih (g.offset a + 1) (by omega) hpair fun b hb =>
        ⟨ha b hb, (hall b (List.mem_cons_of_mem _ hb)).2⟩
      rw [List.length_cons]
      omega
  have := key g.live 0 (by omega) h hrange
  omega

end Graph

end StackLift
