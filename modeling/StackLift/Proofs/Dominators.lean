/-
# The dominators are exact

The sweeps of `Dominators.solve` take blocks out of the sets and never put one back, so they come
to an end; what is left then are the blocks on every walk from the entry.

* `Graph.Walk` : walks against the lists of predecessors;
* `Graph.OnEveryWalk` : the relation that the sets are to hold;
* `Approximation` : what the sets satisfy before and after every sweep;
* `dominates_solve_iff`, `mem_of_solve_iff` : what is answered from the sets is that relation.
-/
import Mathlib.Data.Finset.Prod
import StackLift.Dominators
import StackLift.Proofs.BitSet
import StackLift.Proofs.WellFormed

namespace StackLift

namespace Graph

/-! ## Walks -/

/-- Whether the predecessors of the blocks of a graph belong to it. -/
def PredsInside (g : Graph) : Prop := ∀ b ∈ g.live, ∀ p ∈ (g.block b).preds, p ∈ g.live

/-- The blocks of a walk from one block to another, the last one first.  Each step goes from a
block to one that has it among its predecessors. -/
inductive Walk (g : Graph) (e : BlockId) : BlockId → List BlockId → Prop
  | start : Walk g e e [e]
  | step {p b : BlockId} {w : List BlockId} (h : Walk g e p w) (hp : p ∈ (g.block b).preds) :
      Walk g e b (b :: w)

/-- Whether every walk from the entry to `b` contains `a`. -/
def OnEveryWalk (g : Graph) (a b : BlockId) : Prop :=
  ∀ e w, g.entry? = some e → g.Walk e b w → a ∈ w

theorem onEveryWalk_refl (g : Graph) (b : BlockId) : g.OnEveryWalk b b := by
  intro e w _ hw
  cases hw <;> exact List.mem_cons_self

/-- A block on every walk to `b` other than `b` is on every walk to its predecessors. -/
theorem OnEveryWalk.pred {g : Graph} {a b p : BlockId} (h : g.OnEveryWalk a b) (hne : a ≠ b)
    (hp : p ∈ (g.block b).preds) : g.OnEveryWalk a p := by
  intro e w he hw
  rcases List.mem_cons.1 (h e (b :: w) he (hw.step hp)) with rfl | hmem
  · exact absurd rfl hne
  · exact hmem

end Graph

namespace Dominators

open BitSet

/-! ## Positions -/

theorem position_of_getElem? {l : List BlockId} (hl : l.Nodup) {i : Nat} {b : BlockId}
    (h : l[i]? = some b) : l.idxOf? b = some i := by
  rw [List.idxOf?_eq_some_iff]
  obtain ⟨hi, rfl⟩ := List.getElem?_eq_some_iff.1 h
  refine ⟨hi, rfl, ?_⟩
  intro j hj heq
  have := (List.Nodup.getElem_inj_iff hl).1 heq
  omega

theorem getElem?_of_idxOf? {l : List BlockId} {i : Nat} {b : BlockId} (h : l.idxOf? b = some i) :
    l[i]? = some b := by
  obtain ⟨hi, heq, -⟩ := List.idxOf?_eq_some_iff.1 h
  rw [List.getElem?_eq_getElem hi, heq]

/-- The position of a block of the graph leads back to it. -/
theorem getElem?_position {l : List BlockId} {b : BlockId} (h : b ∈ l) :
    l[position l b]? = some b := by
  obtain ⟨i, hi⟩ := Option.isSome_iff_exists.1 (List.isSome_idxOf?.2 h)
  rw [position, hi, Option.getD_some, getElem?_of_idxOf? hi]

/-- The rows are the blocks but for the entry, with their predecessors. -/
theorem mem_rows_iff (g : Graph) (i : Nat) (preds : List Nat) :
    (i, preds) ∈ rows g ↔ ∃ b, g.live[i]? = some b ∧ g.entry? ≠ some b ∧
      preds = (g.block b).preds.map (position g.live) := by
  simp only [rows, List.mem_map, List.mem_filter, Prod.exists, decide_eq_true_eq,
    List.mk_mem_zipIdx_iff_getElem?, Prod.mk.injEq]
  constructor
  · rintro ⟨b, j, ⟨hj, he⟩, rfl, rfl⟩
    exact ⟨b, hj, he, rfl⟩
  · rintro ⟨b, hb, he, rfl⟩
    exact ⟨b, i, ⟨hb, he⟩, rfl, rfl⟩

/-! ## Sets at positions -/

/-- Whether the block at `j` is in the set of the block at `i`. -/
abbrev bit (sets : Array BitSet) (i j : Nat) : Bool := (setAt sets i).hasBit j

/-- One set is replaced, the others stay. -/
theorem setAt_setIfInBounds (sets : Array BitSet) (i k : Nat) (s : BitSet) (hi : i < sets.size) :
    setAt (sets.setIfInBounds i s) k = if k = i then s else setAt sets k := by
  simp only [setAt, Array.getD_eq_getD_getElem?, Array.getElem?_setIfInBounds]
  by_cases h : i = k
  · subst h
    simp [hi]
  · rw [if_neg h, if_neg (Ne.symm h)]

/-- An intersection has the bits that all sets have. -/
theorem hasBit_foldl_interBits (sets : Array BitSet) (ps : List Nat) (s : BitSet) (j : Nat) :
    (ps.foldl (fun s q => s.interBits (setAt sets q)) s).hasBit j =
      (s.hasBit j && ps.all fun q => bit sets q j) := by
  induction ps generalizing s with
  | nil => simp
  | cons p ps ih => rw [List.foldl_cons, ih, hasBit_interBits, List.all_cons, Bool.and_assoc]

/-- What a block is dominated by as far as its predecessors tell. -/
theorem hasBit_meet_iff (sets : Array BitSet) (i : Nat) {preds : List Nat} (hne : preds ≠ [])
    (j : Nat) : (meet sets i preds).hasBit j = true ↔ j = i ∨ ∀ p ∈ preds, bit sets p j = true := by
  cases preds with
  | nil => exact absurd rfl hne
  | cons p ps =>
    rw [meet, hasBit_setBit, hasBit_foldl_interBits, Bool.or_eq_true, decide_eq_true_eq,
      Bool.and_eq_true, List.all_eq_true, List.forall_mem_cons]

/-- Smaller sets meet in a smaller set. -/
theorem meet_mono {sets sets' : Array BitSet}
    (h : ∀ i j, bit sets' i j = true → bit sets i j = true) (i : Nat) (preds : List Nat) (j : Nat)
    (hj : (meet sets' i preds).hasBit j = true) : (meet sets i preds).hasBit j = true := by
  by_cases hne : preds = []
  · subst hne
    exact h i j hj
  · rw [hasBit_meet_iff _ _ hne] at hj ⊢
    rcases hj with hj | hj
    · exact .inl hj
    · exact .inr fun p hp => h p j (hj p hp)

/-! ## Approximations -/

/-- What holds of the sets before and after every sweep. -/
structure Approximation (g : Graph) (sets : Array BitSet) : Prop where
  /-- There is a set for every block. -/
  size : sets.size = g.live.length
  /-- The sets hold positions of blocks only. -/
  bounded : ∀ i j, bit sets i j = true → j < g.live.length
  /-- The entry is dominated by itself alone. -/
  entry : ∀ i b, g.live[i]? = some b → g.entry? = some b → ∀ j, bit sets i j = true → j = i
  /-- What the predecessors tell is not more than what is known. -/
  shrinking : ∀ row ∈ rows g, ∀ j, (meet sets row.1 row.2).hasBit j = true → bit sets row.1 j = true
  /-- A block on every walk is in the set. -/
  sound : ∀ i j a b, g.live[i]? = some b → g.live[j]? = some a → g.OnEveryWalk a b →
    bit sets i j = true

/-- The sets to start from, one by one. -/
theorem setAt_start {g : Graph} {i : Nat} {b : BlockId} (h : g.live[i]? = some b) :
    setAt (start g) i =
      if g.entry? = some b then (BitSet.empty 0).setBit i else BitSet.fill 0 g.live.length := by
  simp [setAt, start, List.getElem?_zipIdx, h]

theorem bit_eq_false_of_size_le {sets : Array BitSet} {i : Nat} (h : sets.size ≤ i) (j : Nat) :
    bit sets i j = false := by
  simp [bit, setAt, Array.getElem?_eq_none h]

/-- Equal blocks stand at equal positions. -/
theorem position_inj {g : Graph} (hord : g.Ordered) {i j : Nat} {b : BlockId}
    (hi : g.live[i]? = some b) (hj : g.live[j]? = some b) : j = i := by
  have h := position_of_getElem? hord.nodup hi
  rw [position_of_getElem? hord.nodup hj] at h
  exact Option.some.inj h

/-- Bringing one set up to date adds nothing to any set. -/
theorem Approximation.bit_of_update {g : Graph} {sets : Array BitSet} (h : Approximation g sets)
    {i : Nat} {preds : List Nat} (hrow : (i, preds) ∈ rows g) (hi : i < sets.size) (k j : Nat)
    (hkj : bit (sets.setIfInBounds i (meet sets i preds)) k j = true) : bit sets k j = true := by
  rw [bit, setAt_setIfInBounds sets i k _ hi] at hkj
  split at hkj
  · rename_i hk
    subst hk
    exact h.shrinking (k, preds) hrow j hkj
  · exact hkj

section

variable {g : Graph} (hord : g.Ordered)
include hord

/-- The sets to start from are an approximation. -/
theorem approximation_start : Approximation g (start g) := by
  have hsize : (start g).size = g.live.length := by simp [start]
  have hbounded : ∀ i j, bit (start g) i j = true → j < g.live.length := by
    intro i j hij
    by_cases hi : i < g.live.length
    · rw [bit, setAt_start (List.getElem?_eq_getElem hi)] at hij
      split at hij
      · rw [hasBit_setBit, hasBit_empty, Bool.or_false, decide_eq_true_eq] at hij
        omega
      · rw [hasBit_fill, decide_eq_true_eq] at hij
        omega
    · rw [bit_eq_false_of_size_le (by omega)] at hij
      cases hij
  refine ⟨hsize, hbounded, ?_, ?_, ?_⟩
  · intro i b hb he j hij
    rw [bit, setAt_start hb, if_pos he, hasBit_setBit, hasBit_empty, Bool.or_false,
      decide_eq_true_eq] at hij
    exact hij
  · rintro ⟨i, preds⟩ hrow j hj
    obtain ⟨b, hb, he, rfl⟩ := (mem_rows_iff g i preds).1 hrow
    by_cases hne : (g.block b).preds.map (position g.live) = []
    · rw [hne] at hj
      exact hj
    · -- the set of a block that is not the entry is full
      have hi : i < g.live.length := (List.getElem?_eq_some_iff.1 hb).1
      have hlt : j < g.live.length := by
        rcases (hasBit_meet_iff _ _ hne _).1 hj with rfl | hall
        · exact hi
        · obtain ⟨p, hp⟩ := List.exists_mem_of_ne_nil _ hne
          exact hbounded p j (hall p hp)
      rw [bit, setAt_start hb, if_neg he, hasBit_fill, decide_eq_true_eq]
      omega
  · intro i j a b hb ha hdom
    have hj : j < g.live.length := (List.getElem?_eq_some_iff.1 ha).1
    rw [bit, setAt_start hb]
    split
    · rename_i he
      -- the walk that stays at the entry contains nothing else
      have hab : a = b := List.mem_singleton.1 (hdom b [b] he .start)
      subst hab
      rw [hasBit_setBit, position_inj hord hb ha, decide_eq_true rfl, Bool.true_or]
    · rw [hasBit_fill, decide_eq_true_eq]
      omega

/-- A block on every walk to another one is in what the predecessors of the other one tell. -/
theorem Approximation.sound_meet (hpred : g.PredsInside) {sets : Array BitSet}
    (h : Approximation g sets) {i j : Nat} {a b : BlockId} (hb : g.live[i]? = some b)
    (ha : g.live[j]? = some a) (hdom : g.OnEveryWalk a b) :
    (meet sets i ((g.block b).preds.map (position g.live))).hasBit j = true := by
  by_cases hne : (g.block b).preds.map (position g.live) = []
  · rw [hne]
    exact h.sound i j a b hb ha hdom
  · rw [hasBit_meet_iff _ _ hne]
    by_cases hab : a = b
    · subst hab
      exact .inl (position_inj hord hb ha)
    · right
      intro p hp
      obtain ⟨q, hq, rfl⟩ := List.mem_map.1 hp
      have hlive : q ∈ g.live := hpred b (List.mem_of_getElem? hb) q hq
      exact h.sound _ j a q (getElem?_position hlive) ha (hdom.pred hab hq)

/-- Bringing one set up to date keeps an approximation. -/
theorem Approximation.update (hpred : g.PredsInside) {sets : Array BitSet}
    (h : Approximation g sets) {i : Nat} {preds : List Nat} (hrow : (i, preds) ∈ rows g) :
    Approximation g (sets.setIfInBounds i (meet sets i preds)) := by
  obtain ⟨b, hb, he, hpreds⟩ := (mem_rows_iff g i preds).1 hrow
  have hi : i < sets.size := by
    rw [h.size]
    exact (List.getElem?_eq_some_iff.1 hb).1
  have hset := fun k => setAt_setIfInBounds sets i k (meet sets i preds) hi
  have hless := h.bit_of_update hrow hi
  refine ⟨by rw [Array.size_setIfInBounds, h.size], fun k j hkj => h.bounded k j (hless k j hkj),
    fun k c hc hec j hkj => h.entry k c hc hec j (hless k j hkj), ?_, ?_⟩
  · -- the sets have got smaller, and so has what they tell
    rintro ⟨k, ps⟩ hrow' j hj
    have hj' := meet_mono hless k ps j hj
    simp only [bit, hset]
    split
    · rename_i hk
      subst hk
      obtain ⟨c, hc, -, rfl⟩ := (mem_rows_iff g k ps).1 hrow'
      rw [hb] at hc
      cases hc
      rw [hpreds]
      exact hj'
    · exact h.shrinking (k, ps) hrow' j hj'
  · intro k j a c hc ha hdom
    rw [bit, hset]
    split
    · rename_i hk
      subst hk
      rw [hb] at hc
      cases hc
      rw [hpreds]
      exact h.sound_meet hord hpred hb ha hdom
    · exact h.sound k j a c hc ha hdom

end

/-! ## Sweeps come to an end -/

/-- The pairs of positions that are in the sets. -/
def pairs (n : Nat) (sets : Array BitSet) : Finset (Nat × Nat) :=
  (Finset.range n ×ˢ Finset.range n).filter fun p => bit sets p.1 p.2 = true

theorem card_pairs_le (n : Nat) (sets : Array BitSet) : (pairs n sets).card ≤ n * n := by
  refine le_trans (Finset.card_filter_le _ _) ?_
  rw [Finset.card_product, Finset.card_range]

/-- One more sweep, and others if it changed something. -/
theorem iterate_succ (rows : List (Nat × List Nat)) (sets : Array BitSet) (fuel : Nat) :
    iterate rows sets (fuel + 1) =
      if (sweep sets rows).2 = true then
        ((iterate rows (sweep sets rows).1 fuel).1,
          true :: (iterate rows (sweep sets rows).1 fuel).2)
      else ((sweep sets rows).1, [false]) := rfl

/-- Whether a set agrees with what the predecessors tell. -/
def Stable (sets : Array BitSet) (row : Nat × List Nat) : Prop :=
  ∀ j, (meet sets row.1 row.2).hasBit j = bit sets row.1 j

/-- Bringing a set up to date that does not agree takes a pair away. -/
theorem Approximation.pairs_update_ssubset {g : Graph} {sets : Array BitSet}
    (h : Approximation g sets) {i : Nat} {preds : List Nat} (hrow : (i, preds) ∈ rows g)
    (hchange : ¬ (meet sets i preds).sameBits (setAt sets i) = true) :
    pairs g.live.length (sets.setIfInBounds i (meet sets i preds)) ⊂
      pairs g.live.length sets := by
  obtain ⟨b, hb, -, -⟩ := (mem_rows_iff g i preds).1 hrow
  have hin : i < g.live.length := (List.getElem?_eq_some_iff.1 hb).1
  have hi : i < sets.size := by rw [h.size]; exact hin
  -- some position is in the old set and not in the new one
  obtain ⟨j, hj⟩ := not_forall.1 (mt (sameBits_iff _ _).2 hchange)
  have hold : bit sets i j = true ∧ (meet sets i preds).hasBit j = false := by
    cases hm : (meet sets i preds).hasBit j with
    | true => exact absurd (by rw [hm, ← h.shrinking (i, preds) hrow j hm]) hj
    | false =>
      rw [hm] at hj
      exact ⟨Bool.eq_true_of_not_eq_false (Ne.symm hj), rfl⟩
  refine Finset.ssubset_iff_of_subset ?_ |>.2 ⟨(i, j), ?_, ?_⟩
  · rintro ⟨k, l⟩ hkl
    obtain ⟨hrange, hbit⟩ := Finset.mem_filter.1 hkl
    exact Finset.mem_filter.2 ⟨hrange, h.bit_of_update hrow hi k l hbit⟩
  · simp only [pairs, Finset.mem_filter, Finset.mem_product, Finset.mem_range]
    exact ⟨⟨hin, h.bounded i j hold.1⟩, hold.1⟩
  · simp only [pairs, Finset.mem_filter, bit, setAt_setIfInBounds _ _ _ _ hi, if_true, hold.2]
    simp

section

variable {g : Graph} (hord : g.Ordered) (hpred : g.PredsInside)
include hord hpred

/-- A sweep keeps an approximation.  One that changes something takes a pair away, and after one
that changes nothing all sets that it looked at agree with their predecessors. -/
theorem Approximation.sweep {rest : List (Nat × List Nat)} (hsub : ∀ row ∈ rest, row ∈ rows g)
    {sets : Array BitSet} (h : Approximation g sets) :
    Approximation g (sweep sets rest).1 ∧
      pairs g.live.length (sweep sets rest).1 ⊆ pairs g.live.length sets ∧
      ((sweep sets rest).2 = true →
        pairs g.live.length (sweep sets rest).1 ⊂ pairs g.live.length sets) ∧
      ((sweep sets rest).2 = false →
        (sweep sets rest).1 = sets ∧ ∀ row ∈ rest, Stable sets row) := by
  induction rest generalizing sets with
  | nil =>
    refine ⟨h, Finset.Subset.refl _, ?_, fun _ => ⟨rfl, by simp⟩⟩
    intro hc
    cases hc
  | cons row rest ih =>
    obtain ⟨i, preds⟩ := row
    have hrow := hsub (i, preds) List.mem_cons_self
    have hrest := fun r hr => hsub r (List.mem_cons_of_mem _ hr)
    rw [Dominators.sweep]
    by_cases hsame : (meet sets i preds).sameBits (setAt sets i) = true
    · -- the set stays, and what the other rows tell of all sets is told of the same ones
      rw [if_pos hsame]
      obtain ⟨h₁, h₂, h₃, h₄⟩ := ih hrest h
      refine ⟨h₁, h₂, h₃, ?_⟩
      intro hf
      obtain ⟨heq, hall⟩ := h₄ hf
      refine ⟨heq, ?_⟩
      intro row hmem
      rcases List.mem_cons.1 hmem with rfl | hmem
      · exact (sameBits_iff _ _).1 hsame
      · exact hall row hmem
    · rw [if_neg hsame]
      have hless := h.pairs_update_ssubset hrow hsame
      obtain ⟨h₁, h₂, -, -⟩ := ih hrest (h.update hord hpred hrow)
      refine ⟨h₁, h₂.trans hless.subset, ?_, ?_⟩
      · intro _
        exact lt_of_le_of_lt h₂ hless
      · intro hf
        cases hf

/-- The sweeps come to an end before they are as many as the pairs, and all sets agree with their
predecessors then. -/
theorem Approximation.iterate {fuel : Nat} {sets : Array BitSet} (h : Approximation g sets)
    (hfuel : (pairs g.live.length sets).card < fuel) :
    Approximation g (iterate (rows g) sets fuel).1 ∧
      (∀ row ∈ rows g, Stable (iterate (rows g) sets fuel).1 row) ∧
      (iterate (rows g) sets fuel).2.getLast? = some false := by
  induction fuel generalizing sets with
  | zero => omega
  | succ fuel ih =>
    obtain ⟨h₁, -, h₃, h₄⟩ := h.sweep hord hpred (fun row hrow => hrow)
    rw [iterate_succ]
    split
    · -- a sweep that changed something took a pair away, so the fuel lasts
      rename_i hc
      have hlt := Finset.card_lt_card (h₃ hc)
      obtain ⟨i₁, i₂, i₃⟩ := ih h₁ (by omega)
      refine ⟨i₁, i₂, ?_⟩
      rw [List.getLast?_cons, i₃]
      rfl
    · rename_i hc
      obtain ⟨heq, hall⟩ := h₄ (Bool.eq_false_of_not_eq_true hc)
      refine ⟨h₁, ?_, rfl⟩
      rw [heq]
      exact hall

omit hord in
/-- In sets that agree with their predecessors, a block is on every walk to the blocks whose sets
it is in. -/
theorem Approximation.mem_walk {sets : Array BitSet} (h : Approximation g sets)
    (hstable : ∀ row ∈ rows g, Stable sets row) {e : BlockId} (he : g.entry? = some e)
    {b : BlockId} {w : List BlockId} (hw : g.Walk e b w) {i j : Nat} {a : BlockId}
    (hb : g.live[i]? = some b) (ha : g.live[j]? = some a) (hij : bit sets i j = true) :
    a ∈ w := by
  have hsame {i : Nat} {b : BlockId} (hb : g.live[i]? = some b) (hji : j = i) : a = b := by
    subst hji
    exact Option.some.inj (ha.symm.trans hb)
  induction hw generalizing i with
  | start =>
    rw [hsame hb (h.entry i e hb he j hij)]
    exact List.mem_cons_self
  | @step p b w hw hp ih =>
    by_cases heb : g.entry? = some b
    · -- a walk may come back to the entry, whose set holds nothing else
      rw [hsame hb (h.entry i b hb heb j hij)]
      exact List.mem_cons_self
    · have hrow := (mem_rows_iff g i _).2 ⟨b, hb, heb, rfl⟩
      have hne : (g.block b).preds.map (position g.live) ≠ [] := by
        intro hnil
        rw [List.map_eq_nil_iff.1 hnil] at hp
        cases hp
      rw [← hstable _ hrow, hasBit_meet_iff _ _ hne] at hij
      rcases hij with hji | hall
      · rw [hsame hb hji]
        exact List.mem_cons_self
      · have hlive : p ∈ g.live := hpred b (List.mem_of_getElem? hb) p hp
        have hpj := hall _ (List.mem_map_of_mem hp)
        exact List.mem_cons_of_mem _ (ih (getElem?_position hlive) hpj)

/-! ## The answers -/

/-- What `solve` ends with. -/
theorem approximation_solve :
    Approximation g (solve g).1.sets ∧ (∀ row ∈ rows g, Stable (solve g).1.sets row) ∧
      (solve g).2.getLast? = some false := by
  have hcard := card_pairs_le g.live.length (start g)
  exact (approximation_start hord).iterate hord hpred (Nat.lt_succ_of_le hcard)

/-- The sets that are found hold exactly the blocks on every walk. -/
theorem bit_solve_iff {i j : Nat} {a b : BlockId} (hb : g.live[i]? = some b)
    (ha : g.live[j]? = some a) : bit (solve g).1.sets i j = true ↔ g.OnEveryWalk a b := by
  obtain ⟨happrox, hstable, -⟩ := approximation_solve hord hpred
  constructor
  · intro hij e w he hw
    exact happrox.mem_walk hpred hstable he hw hb ha hij
  · intro hdom
    exact happrox.sound i j a b hb ha hdom

/-- The relation that is answered is the one of walks. -/
theorem dominates_solve_iff {a b : BlockId} (ha : a ∈ g.live) (hb : b ∈ g.live) :
    (solve g).1.dominates a b = true ↔ g.OnEveryWalk a b := by
  obtain ⟨j, hj⟩ := List.getElem?_of_mem ha
  obtain ⟨i, hi⟩ := List.getElem?_of_mem hb
  rw [← bit_solve_iff hord hpred hi hj, dominates, indexOf?, indexOf?]
  simp only [show (solve g).1.blocks = g.live from rfl,
    show (solve g).1.gone = BitSet.empty 0 from rfl,
    position_of_getElem? hord.nodup hi, position_of_getElem? hord.nodup hj, hasBit_empty,
    Bool.not_false, Bool.true_and]

/-- The dominators of a block are the blocks of the graph on every walk to it. -/
theorem mem_of_solve_iff {a b : BlockId} (hb : b ∈ g.live) :
    a ∈ (solve g).1.of b ↔ a ∈ g.live ∧ g.OnEveryWalk a b := by
  obtain ⟨i, hi⟩ := List.getElem?_of_mem hb
  rw [of, indexOf?, show (solve g).1.blocks = g.live from rfl,
    position_of_getElem? hord.nodup hi]
  simp only [blocksIn, List.mem_map, List.mem_filter, Prod.exists, Bool.and_eq_true,
    show (solve g).1.blocks = g.live from rfl, show (solve g).1.gone = BitSet.empty 0 from rfl,
    List.mk_mem_zipIdx_iff_getElem?, hasBit_empty, Bool.not_false, and_true, exists_and_right,
    exists_eq_right]
  constructor
  · rintro ⟨j, hj, hbit⟩
    exact ⟨List.mem_of_getElem? hj, (bit_solve_iff hord hpred hi hj).1 hbit⟩
  · rintro ⟨ha, hdom⟩
    obtain ⟨j, hj⟩ := List.getElem?_of_mem ha
    exact ⟨j, hj, (bit_solve_iff hord hpred hi hj).2 hdom⟩

end

/-- The dominators of a block stand in the order of the blocks of the graph. -/
theorem of_sublist (d : Dominators) (b : BlockId) : (d.of b).Sublist d.blocks := by
  unfold of
  split
  · exact List.nil_sublist _
  · unfold blocksIn
    refine (List.Sublist.map _ List.filter_sublist).trans ?_
    rw [List.zipIdx_map_fst]

end Dominators

end StackLift
