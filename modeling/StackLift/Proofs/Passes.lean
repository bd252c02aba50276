/-
# From the code to the graph

A lift walks all blocks that control reaches, and then runs its passes.  Those complete all phis, or
find one that cannot be completed.

* `Graph.Traversed` : what holds of the graph when all blocks are walked;
* `Graph.Traversed.reaches_iff` : what control reaches is what was stepped;
* `Lifter.passes_cases` : what the passes come to;
* `Lifter.lift_ok` : a lift that succeeds, taken apart.
-/
import Std.Data.String.ToInt
import StackLift.Proofs.Checks
import StackLift.Proofs.Completion
import StackLift.Proofs.Traversal

namespace StackLift

/-! ## Paths -/

/-- The paths from a block along successors, the last block first. -/
inductive Graph.Trail (g : Graph) (e : BlockId) : List BlockId → Prop
  | entry : Trail g e [e]
  | step {b a : BlockId} {rest : List BlockId} (h : Trail g e (b :: rest))
      (ha : a ∈ (g.block b).succs) : Trail g e (a :: b :: rest)

/-! ## All blocks are walked -/

/-- What holds of the graph when all blocks are walked, those at the offsets `done`. -/
structure Graph.Traversed (c : Code) (done : List Int) (g : Graph) : Prop where
  divided : g.Divided c done none
  succs_done : ∀ b, ∀ a ∈ (g.block b).succs, g.offset a ∈ done
  entry_done : 0 ∈ done
  nodup : done.Nodup
  done_reaches : ∀ o ∈ done, c.Reaches o
  headers_first : done.Pairwise fun p o =>
    ∀ i ∈ c.blockRun o, i.op.effect? = some .forLoop → i.next ≠ p

/-- When nothing is to be walked, all blocks are walked. -/
theorem Lifter.Progress.traversed {c : Code} {done : List Int} {s : Lifter}
    (h : Progress c done none s) (hrooted : Rooted c done s)
    (hnone : ∀ o, ¬ s.pending.Holds o) : s.graph.Traversed c done := by
  have hmarks : Marks c done s.pending s.processed := by simpa using h.marks
  have hdone : ∀ {o}, s.pending.Holds o ∨ s.processed.Holds o → o ∈ done := fun ho =>
    (hmarks.processed_iff _).1 (ho.resolve_left (hnone _))
  exact ⟨h.divided, fun b a ha => hdone (h.marked b a ha), hdone hmarks.entry, hmarks.nodup,
    fun o ho => hmarks.reaches o (.inr ((hmarks.processed_iff o).2 ho)), hrooted.headers_first⟩

namespace Graph.Traversed

variable {c : Code} {done : List Int} {g : Graph} {b : BlockId} {o : Int}

/-- A block at an offset that was walked was walked. -/
theorem walked (h : g.Traversed c done) (hb : b ∈ g.live) (ho : g.offset b ∈ done) :
    g.Walked c done b := by
  obtain ⟨a, ha, hoff, hwalked⟩ := h.divided.walked _ ho
  rwa [h.divided.wellFormed.ordered.eq_of_offset_eq ha hb hoff] at hwalked

/-- A block that has phis or leads anywhere was walked. -/
theorem walked_of_nonempty (h : g.Traversed c done)
    (hsome : (g.block b).phis ≠ #[] ∨ (g.block b).succs ≠ []) :
    b ∈ g.live ∧ g.offset b ∈ done := by
  have hb : b ∈ g.live := by
    refine (h.divided.wellFormed.mem_live_iff b).2 (Nat.lt_of_not_le fun hle => ?_)
    rw [block_of_size_le hle] at hsome
    exact hsome.elim (· rfl) (· rfl)
  refine ⟨hb, ?_⟩
  by_contra hnot
  have hunwalked := h.divided.unwalked b hb (by simp) hnot
  exact hsome.elim (· hunwalked.phis_eq) (· hunwalked.succs_eq)

/-- A block of which an entry slot is demanded was walked. -/
theorem walked_of_demands (h : g.Traversed c done) {n : Nat} (hn : 0 < n)
    (hdemands : g.Demands b n) : b ∈ g.live ∧ g.offset b ∈ done := by
  apply h.walked_of_nonempty
  cases hdemands with
  | own hle =>
    refine .inl fun hempty => ?_
    rw [hempty, Array.size_empty] at hle
    omega
  | through _ ha _ _ => exact .inr (List.ne_nil_of_mem ha)

/-- A predecessor was walked. -/
theorem walked_of_mem_preds (h : g.Traversed c done) {p : BlockId} (hp : p ∈ (g.block b).preds) :
    p ∈ g.live ∧ g.offset p ∈ done :=
  h.walked_of_nonempty (.inr (List.ne_nil_of_mem ((h.divided.wellFormed.edge_iff p b).2 hp)))

/-- Blocks stand at offsets of 64 bits. -/
theorem inRange (h : g.Traversed c done) (hc : c.Sound) :
    ∀ b ∈ g.live, BitSet.InRange (g.offset b) := fun b hb =>
  hc.inRange_of_starts (h.divided.starts b hb)

/-- The run of a block that was walked begins at its offset. -/
theorem exists_start (h : g.Traversed c done) (hc : c.Sound) (ho : o ∈ done) :
    ∃ i ∈ c.blockRun o, i.offset = o := by
  obtain ⟨b, -, rfl, i, t, iterator, hleft⟩ := h.divided.walked o ho
  exact hc.exists_start_of_mem_runFrom (List.mem_of_getLast? hleft.last)

/-- There is a block for the entry. -/
theorem exists_entry (h : g.Traversed c done) : ∃ e ∈ g.live, g.offset e = 0 := by
  obtain ⟨e, he, hoff, -⟩ := h.divided.walked 0 h.entry_done
  exact ⟨e, he, hoff⟩

/-- A path leads to a block with each instruction that control reaches. -/
theorem exists_trail (h : g.Traversed c done) (hc : c.Sound) {e : BlockId} (he : e ∈ g.live)
    (hzero : g.offset e = 0) (hreach : c.Reaches o) :
    ∃ b rest, g.Trail e (b :: rest) ∧ b ∈ g.live ∧ g.offset b ∈ done ∧
      ∃ i ∈ c.blockRun (g.offset b), i.offset = o := by
  induction hreach with
  | entry =>
    have hdone : g.offset e ∈ done := hzero ▸ h.entry_done
    obtain ⟨i, hi, hoff⟩ := h.exists_start hc hdone
    exact ⟨e, [], .entry, he, hdone, i, hi, hoff.trans hzero⟩
  | @step o o' j _ hj ho' ih =>
    obtain ⟨b, rest, htrail, hb, hdone, i, hi, rfl⟩ := ih
    obtain rfl : i = j :=
      Option.some.inj ((hc.at?_offset (Code.mem_of_mem_runFrom hi)).symm.trans hj)
    rcases hc.runFrom_before hi with hlast | ⟨hflow, k, hk, hnext⟩
    · -- control leaves the block for another one, which was walked too
      obtain ⟨i', t, iterator, hleft⟩ := h.walked hb hdone
      obtain rfl : i = i' := Option.some.inj (hlast.symm.trans hleft.last)
      obtain ⟨a, ha, rfl⟩ := (hleft.successors o').2 ho'
      have hsucc : a ∈ (g.block b).succs := by
        rw [hleft.succs_eq]
        exact List.mem_eraseDups.2 ha
      have hdone' := h.succs_done b a hsucc
      exact ⟨a, b :: rest, .step htrail hsucc, h.divided.wellFormed.succs_live b a hsucc, hdone',
        h.exists_start hc hdone'⟩
    · rw [Instruction.successors, hflow] at ho'
      exact ⟨b, rest, htrail, hb, hdone, k, hk, hnext.trans (List.mem_singleton.1 ho').symm⟩

/-- What control reaches is what the walked blocks are made of. -/
theorem reaches_iff (h : g.Traversed c done) (hc : c.Sound) (o : Int) :
    c.Reaches o ↔ ∃ p ∈ done, ∃ i ∈ c.blockRun p, i.offset = o := by
  constructor
  · intro hreach
    obtain ⟨e, he, hzero⟩ := h.exists_entry
    obtain ⟨b, -, -, -, hdone, hi⟩ := h.exists_trail hc he hzero hreach
    exact ⟨_, hdone, hi⟩
  · rintro ⟨p, hp, i, hi, rfl⟩
    exact hc.reaches_of_mem_runFrom (h.done_reaches p hp) hi

/-- What was walked is a run that begins where one can. -/
theorem starts (h : g.Traversed c done) (ho : o ∈ done) : c.Starts o := by
  obtain ⟨b, hb, rfl, -⟩ := h.divided.walked o ho
  exact h.divided.starts b hb

/-- A run begins at an offset that control reaches if a block was walked there. -/
theorem mem_done_iff (h : g.Traversed c done) (hc : c.Sound) (o : Int) :
    o ∈ done ↔ c.Reaches o ∧ c.Starts o := by
  constructor
  · exact fun ho => ⟨h.done_reaches o ho, h.starts ho⟩
  · rintro ⟨hreach, hstart⟩
    obtain ⟨p, hp, i, hi, rfl⟩ := (h.reaches_iff hc o).1 hreach
    rcases hc.runFrom_behind hi with heq | ⟨j, hj, hflow, hstop, hnext⟩
    · exact heq ▸ hp
    · -- no run begins within the run of another block
      rw [← hnext, hc.starts_next_iff (Code.mem_of_mem_runFrom hj) hflow, hstop] at hstart
      cases hstart

/-- A path leads to each block that was walked. -/
theorem exists_trail_to (h : g.Traversed c done) (hc : c.Sound) {e : BlockId} (he : e ∈ g.live)
    (hzero : g.offset e = 0) (hb : b ∈ g.live) (ho : g.offset b ∈ done) :
    ∃ rest, g.Trail e (b :: rest) := by
  obtain ⟨a, rest, htrail, ha, hdone, i, hi, hoff⟩ :=
    h.exists_trail hc he hzero (h.done_reaches _ ho)
  obtain ⟨j, hj, hoff'⟩ := h.exists_start hc ho
  obtain rfl : i = j := hc.laidOut.eq_of_offset_eq (Code.mem_of_mem_runFrom hi)
    (Code.mem_of_mem_runFrom hj) (hoff.trans hoff'.symm)
  have hab := hc.start_eq_of_mem_runFrom (h.starts hdone) (h.starts ho) hi hj
  rw [h.divided.wellFormed.ordered.eq_of_offset_eq ha hb hab] at htrail
  exact ⟨rest, htrail⟩

/-- The dead blocks are those that were not walked. -/
theorem mem_deadBlocks_iff (h : g.Traversed c done) (hc : c.Sound) (b : BlockId) :
    b ∈ g.deadBlocks ↔ b ∈ g.live ∧ g.offset b ∉ done := by
  have hwf := h.divided.wellFormed
  obtain ⟨e, he, hzero⟩ := h.exists_entry
  have hentry : g.entry? = some e := (hwf.ordered.find?_eq_some_iff 0).2 ⟨he, hzero⟩
  have hdead : b ∈ g.deadBlocks ↔
      b ∈ g.live ∧ e ≠ b ∧ (g.block b).preds = [] ∧ (g.block b).succs = [] := by
    simp [deadBlocks, Block.isDead, hentry]
  rw [hdead]
  refine and_congr_right fun hb => ⟨?_, fun hnot => ⟨?_, ?_, ?_⟩⟩
  · -- the path to a block that was walked comes in from a predecessor
    rintro ⟨hne, hpreds, -⟩ hdone
    obtain ⟨rest, htrail⟩ := h.exists_trail_to hc he hzero hb hdone
    cases htrail with
    | entry => exact hne rfl
    | @step a _ rest _ ha =>
      have := (hwf.edge_iff a b).1 ha
      rw [hpreds] at this
      cases this
  · rintro rfl
    exact hnot (hzero ▸ h.entry_done)
  · refine List.eq_nil_iff_forall_not_mem.2 fun a ha => ?_
    exact hnot (h.succs_done a b ((hwf.edge_iff a b).2 ha))
  · exact (h.divided.unwalked b hb (by simp) hnot).succs_eq

end Graph.Traversed

/-! ## The beginning -/

/-- Asking for blocks at labels makes blank ones. -/
theorem Graph.foldl_ensure {c : Code} (labels : List Int) {g : Graph} (hwf : g.WellFormed)
    (hblank : ∀ b ∈ g.live, ∃ o ∈ c.labels, g.block b = { offset := o })
    (hlabels : ∀ o ∈ labels, o ∈ c.labels) :
    let g' := labels.foldl (fun g o => (g.ensure o).2) g
    g'.WellFormed ∧ g.Extends g' ∧
      (∀ b ∈ g'.live, ∃ o ∈ c.labels, g'.block b = { offset := o }) ∧
      ∀ o ∈ labels, ∃ b ∈ g'.live, g'.offset b = o := by
  induction labels generalizing g with
  | nil => exact ⟨hwf, .refl g, hblank, by simp⟩
  | cons o labels ih =>
    have he := hwf.ensure o
    have hblank' : ∀ b ∈ (g.ensure o).2.live, ∃ p ∈ c.labels,
        (g.ensure o).2.block b = { offset := p } := by
      intro b hb
      rcases he.new b hb with hb | hnew
      · rw [he.old b hb]
        exact hblank b hb
      · exact ⟨o, hlabels o List.mem_cons_self, hnew⟩
    obtain ⟨hwf', hext, hblank'', hall⟩ := ih he.wellFormed hblank' fun p hp =>
      hlabels p (List.mem_cons_of_mem _ hp)
    refine ⟨hwf', he.toExtends.trans hext, hblank'', ?_⟩
    intro p hp
    rcases List.mem_cons.1 hp with rfl | hp
    · exact ⟨_, hext.live_subset _ he.mem_live,
        (he.wellFormed.offset_eq hext he.mem_live).trans he.offset_eq⟩
    · exact hall p hp

/-- A lifter that was just made has blank blocks at the labels, and the entry to be walked. -/
theorem Lifter.progress_ofCode (c : Code) (options : LiftOptions) :
    Progress c [] none (ofCode c options) := by
  obtain ⟨hwf, -, hblank, hall⟩ := Graph.foldl_ensure (c := c) c.labels
    Graph.wellFormed_empty (by intro b hb; cases hb) fun o ho => ho
  have hzero := BitSet.holds_setBit (s := BitSet.empty 0) (k := 0) (Int.le_refl 0)
  have hpending : ∀ o, (ofCode c options).pending.Holds o → o = 0 := fun o ho =>
    ((hzero o).1 ho).resolve_right (BitSet.not_holds_empty o)
  have hprocessed : ∀ o, ¬ (ofCode c options).processed.Holds o := BitSet.not_holds_empty
  refine ⟨rfl, ⟨hwf, ?_, hall, by simp, ?_, by simp, by simp, by simp⟩, ⟨rfl, rfl, ?_, ?_, ?_,
    by simp, .inl ((hzero 0).2 (.inl rfl))⟩, ?_⟩
  · intro b hb
    obtain ⟨o, ho, hblock⟩ := hblank b hb
    rw [Graph.offset]
    exact hblock ▸ .inr (.inl ho)
  · intro b hb _ _
    obtain ⟨o, -, hblock⟩ := hblank b hb
    have hblock : (ofCode c options).graph.block b = { offset := o } := hblock
    exact Graph.unwalked_of_blank hblock rfl
  · exact fun o ho => .inl (hpending o ho)
  · rintro o (ho | ho)
    · exact hpending o ho ▸ .entry
    · exact absurd ho (hprocessed o)
  · exact fun o => iff_of_false (hprocessed o) (by simp)
  · -- blank blocks have no edges, and there are no other blocks
    intro b a ha
    by_cases hb : b ∈ (ofCode c options).graph.live
    · obtain ⟨o, -, hblock⟩ := hblank b hb
      have hblock : (ofCode c options).graph.block b = { offset := o } := hblock
      rw [hblock] at ha
      cases ha
    · have hnot : (ofCode c options).graph.blocks.size ≤ b :=
        Nat.le_of_not_lt fun hlt => hb ((hwf.mem_live_iff b).2 hlt)
      rw [Graph.block_of_size_le hnot] at ha
      cases ha

/-! ## Removing blocks -/

namespace Graph

variable {g : Graph} {dead : List BlockId}

theorem foldl_discard_eq (g : Graph) (dead : List BlockId) :
    dead.foldl discard g = { g with live := dead.foldl List.erase g.live } := by
  induction dead generalizing g with
  | nil => rfl
  | cons b dead ih => rw [List.foldl_cons, ih, List.foldl_cons, discard]

/-- What is left of a list if elements are erased. -/
theorem mem_foldl_erase {l : List BlockId} (h : l.Nodup) (b : BlockId) :
    b ∈ dead.foldl List.erase l ↔ b ∈ l ∧ b ∉ dead := by
  induction dead generalizing l with
  | nil => simp
  | cons a dead ih =>
    rw [List.foldl_cons, ih (h.erase a), h.mem_erase_iff, List.mem_cons, not_or]
    exact ⟨fun ⟨⟨hne, hb⟩, hnot⟩ => ⟨hb, hne, hnot⟩, fun ⟨hb, hne, hnot⟩ => ⟨⟨hne, hb⟩, hnot⟩⟩

theorem foldl_erase_sublist (l : List BlockId) : (dead.foldl List.erase l).Sublist l := by
  induction dead generalizing l with
  | nil => exact List.Sublist.refl _
  | cons a dead ih => exact (ih _).trans List.erase_sublist

theorem stripDead_eq (g : Graph) :
    g.stripDead.2 = { g with live := g.deadBlocks.foldl List.erase g.live } :=
  foldl_discard_eq g g.deadBlocks

theorem block_stripDead (g : Graph) (b : BlockId) : g.stripDead.2.block b = g.block b := by
  rw [stripDead_eq]
  rfl

theorem Ordered.mem_live_stripDead (h : g.Ordered) (b : BlockId) :
    b ∈ g.stripDead.2.live ↔ b ∈ g.live ∧ b ∉ g.deadBlocks := by
  rw [stripDead_eq]
  exact mem_foldl_erase h.nodup b

theorem Ordered.stripDead (h : g.Ordered) : g.stripDead.2.Ordered := by
  rw [stripDead_eq]
  exact h.sublist (foldl_erase_sublist _)

/-- The graph in which the phis are completed. -/
def kept (g : Graph) (keepDead : Bool) : Graph := if keepDead then g else g.stripDead.2

/-- The dominators that are kept: the dead blocks are forgotten, unless they are kept. -/
def keptDominators (g : Graph) (keepDead : Bool) : Dominators :=
  if keepDead then (Dominators.solve g).1
  else g.deadBlocks.foldl Dominators.forget (Dominators.solve g).1

/-- Only the list of blocks is shorter if the dead ones are removed. -/
theorem kept_eq (g : Graph) (keepDead : Bool) :
    g.kept keepDead = { g with live := (g.kept keepDead).live } := by
  unfold kept
  split
  · rfl
  · rw [stripDead_eq]

end Graph

namespace Graph.Traversed

variable {c : Code} {done : List Int} {g : Graph}

/-- The blocks that were walked are kept. -/
theorem mem_live_kept_iff (h : g.Traversed c done) (hc : c.Sound) (keepDead : Bool) (b : BlockId) :
    b ∈ (g.kept keepDead).live ↔ b ∈ g.live ∧ (keepDead = true ∨ g.offset b ∈ done) := by
  unfold kept
  split
  · rename_i hkeep
    simp [hkeep]
  · rename_i hkeep
    rw [h.divided.wellFormed.ordered.mem_live_stripDead, h.mem_deadBlocks_iff hc]
    refine and_congr_right fun hb => ?_
    rw [not_and, not_not, or_iff_right hkeep]
    exact ⟨fun hdone => hdone hb, fun hdone _ => hdone⟩

/-- The phis can be completed whether the dead blocks are kept or not: nothing comes from those. -/
theorem completable_kept (h : g.Traversed c done) (hc : c.Sound) (keepDead : Bool) :
    (g.kept keepDead).Completable := by
  have hwf := h.divided.wellFormed
  have hlive := h.mem_live_kept_iff hc keepDead
  rw [kept_eq] at hlive ⊢
  refine ⟨hwf.typed.slotted, fun b hb => ?_, fun b _ a ha => ?_, fun b _ => hwf.preds_nodup b, ?_⟩
  · exact (hwf.mem_live_iff b).1 ((hlive b).1 hb).1
  · obtain ⟨ha, ho⟩ := h.walked_of_mem_preds ha
    exact (hlive a).2 ⟨ha, .inr ho⟩
  · intro b _ k v p _ hp
    rw [Flows, hwf.unfed v p hp]
    simp

/-- While the phis are completed, all of them are in slots. -/
theorem feeding_kept (h : g.Traversed c done) {keepDead : Bool} {g' : Graph}
    (hfilling : (g.kept keepDead).Filling none g') : (g.kept keepDead).Feeding g' := by
  have hwf := h.divided.wellFormed
  rw [kept_eq] at hfilling ⊢
  exact hfilling.feeding (hwf.typed.of_same rfl (fun _ => rfl) (fun _ => rfl) hwf.typed.used_le)
    hwf.unfed hwf.edge_iff

/-- All predecessors are blocks of the graph. -/
theorem predsInside (h : g.Traversed c done) : g.PredsInside :=
  fun _ _ _ hp => (h.walked_of_mem_preds hp).1

theorem ordered_kept (h : g.Traversed c done) (keepDead : Bool) : (g.kept keepDead).Ordered := by
  unfold kept
  split
  · exact h.divided.wellFormed.ordered
  · exact h.divided.wellFormed.ordered.stripDead

end Graph.Traversed

/-! ## The passes -/

namespace Lift

variable {s s' : Lifter}

/-- Parameters are refused, or nothing happens. -/
theorem checkSignature_cases (signature : Signature) (s : Lifter) :
    (∃ e, checkSignature signature s = .error (.error (.signature e)) s) ∨
      checkSignature signature s = .ok () s := by
  unfold checkSignature
  by_cases h₁ : signature.defaults ≠ 0
  · rw [if_pos h₁]
    exact .inl ⟨_, rfl⟩
  rw [if_neg h₁]
  by_cases h₂ : signature.varargs ≠ ""
  · rw [if_pos h₂]
    exact .inl ⟨_, rfl⟩
  rw [if_neg h₂]
  by_cases h₃ : signature.kwargs ≠ ""
  · rw [if_pos h₃]
    exact .inl ⟨_, rfl⟩
  rw [if_neg h₃]
  exact .inr rfl

theorem checkSignature_of_plain {signature : Signature} (hdefaults : signature.defaults = 0)
    (hvarargs : signature.varargs = "") (hkwargs : signature.kwargs = "") (s : Lifter) :
    checkSignature signature s = .ok () s := by
  unfold checkSignature
  rw [if_neg (not_not_intro hdefaults), if_neg (not_not_intro hvarargs),
    if_neg (not_not_intro hkwargs)]
  rfl

/-- What is checked on the way changes nothing. -/
theorem orFault_ok {α : Type} {r : Except Fault α} {a : α} (h : orFault r s = .ok a s') :
    r = .ok a ∧ s' = s := by
  cases r with
  | ok x =>
    cases h
    exact ⟨rfl, rfl⟩
  | error f => cases h

/-- What is checked on the way fails, or is gone on with. -/
theorem orFault_bind {α β : Type} (r : Except Fault α) (k : α → Lift β) (s : Lifter) :
    (orFault r >>= k) s =
      match r with
      | .ok a => k a s
      | .error f => .error (.fault f) s := by
  cases r <;> rfl

/-- Finding the dominators removes the dead blocks, unless they are kept. -/
theorem exists_findDominators (hord : s.graph.Ordered) (hpred : s.graph.PredsInside)
    (hrange : ∀ b ∈ s.graph.live, BitSet.InRange (s.graph.offset b)) :
    ∃ s', findDominators s = .ok () s' ∧ s'.code = s.code ∧ s'.options = s.options ∧
      s'.steps = s.steps ∧ s'.graph = s.graph.kept s.options.keepDead ∧
      (s.options.keepDead = false → s'.dead = s.graph.deadBlocks) ∧
      s'.dominators = some (s.graph.keptDominators s.options.keepDead) ∧
      s'.backbone = (s.graph.keptDominators s.options.keepDead).backbone
        (s.graph.kept s.options.keepDead) := by
  have hsolve := Dominators.checkedSolve_eq (hord.length_live_le hrange)
  have hbackbone := Dominators.checkedBackbone_foldl_forget hord hpred
  have hsweeps : ∀ e ∈ Dominators.sweepEvents (Dominators.solve s.graph).2, e.step? = none := by
    intro e he
    obtain ⟨⟨changed, i⟩, -, rfl⟩ := List.mem_map.1 he
    rfl
  have hremoved : ∀ (g : Graph) dead, ∀ e ∈ g.removalEvents dead, e.step? = none := by
    intro g dead e he
    obtain ⟨b, -, rfl⟩ := List.mem_map.1 he
    rfl
  unfold findDominators Graph.kept Graph.keptDominators
  rw [get_bind, hsolve, orFault_bind]
  dsimp only
  rw [show (Dominators.solve s.graph).1.checkedBackbone _ = .ok _ from hbackbone [] _, orFault_bind]
  dsimp only
  by_cases hkeep : s.options.keepDead = true
  · rw [if_pos (show (s.tellAll _).options.keepDead = true from hkeep), if_pos hkeep, if_pos hkeep]
    refine ⟨_, rfl, rfl, rfl, s.steps_tellAll hsweeps, rfl, fun hno => ?_, rfl, rfl⟩
    rw [hkeep] at hno
    cases hno
  · rw [if_neg (show ¬ (s.tellAll _).options.keepDead = true from hkeep), if_neg hkeep,
      if_neg hkeep, show (s.tellAll _).graph = s.graph from rfl, Graph.removeDead_eq hord.nodup]
    dsimp only
    rw [hbackbone, orFault_bind]
    refine ⟨_, rfl, rfl, rfl, ?_, rfl, fun _ => rfl, rfl, rfl⟩
    exact (Lifter.steps_tellAll _ (hremoved _ _)).trans (s.steps_tellAll hsweeps)

theorem completePhis_of_ok {r : PhiCompletion.State}
    (h : s.graph.completePhis (depthLimit s.code) = .ok () r) :
    completePhis s = .ok () { s with graph := r.graph, events := s.events ++ r.events } := by
  rw [completePhis, get_bind, h]
  rfl

theorem completePhis_of_error {r : PhiCompletion.State} {e : StackError}
    (h : s.graph.completePhis (depthLimit s.code) = .error (.error e) r) :
    completePhis s = .error (.error (.stack e))
      { s with graph := r.graph, events := s.events ++ r.events } := by
  rw [completePhis, get_bind, h]
  rfl

/-- Telling about the graph changes nothing else. -/
theorem exists_finish (h : s.graph.verifyPhis = .ok ()) :
    ∃ e, e.step? = none ∧ finish s = .ok () (s.tell e) := by
  rw [finish, get_bind, h]
  exact ⟨_, rfl, rfl⟩

/-- A lift that was not started checks the parameters, walks the blocks and runs the passes. -/
theorem all_of_not_started (h : s.started = false) :
    all s = (checkSignature s.code.signature >>= fun _ =>
      traverse s.code.at? (traverseFuel s.code) >>= fun _ => findDominators >>= fun _ =>
        completePhis >>= fun _ => finish) { s with started := true } := by
  rw [all, get_bind]
  dsimp only
  rw [if_neg (by simp [h])]
  simp only [Code.getElem?_index]
  rfl

/-- A lift refuses a function, or walks its blocks and runs the passes. -/
theorem all_cases (s : Lifter) :
    (∃ e s', all s = .error (.error e) s' ∧ ∀ e', e ≠ .stack e') ∨
    all s = (traverse s.code.at? (traverseFuel s.code) >>= fun _ => findDominators >>= fun _ =>
      completePhis >>= fun _ => finish) { s with started := true } := by
  cases hstarted : s.started with
  | true =>
    refine .inl ⟨.alreadyLifted, s, ?_, by rintro e' ⟨⟩⟩
    rw [all, get_bind]
    dsimp only
    rw [if_pos hstarted]
    rfl
  | false =>
    rw [all_of_not_started hstarted]
    rcases checkSignature_cases s.code.signature { s with started := true } with
      ⟨e, hcheck⟩ | hcheck
    · exact .inl ⟨_, _, bind_of_error hcheck, by rintro e' ⟨⟩⟩
    · exact .inr (bind_of_ok hcheck)

end Lift

/-! ## What a lift comes to -/

namespace Lifter

/-- What holds when the dominators were found and phis are completed: `g` is the graph when all
blocks were walked, those at the offsets `done`. -/
structure Surveyed (c : Code) (done : List Int) (g : Graph) (s : Lifter) : Prop where
  traversed : g.Traversed c done
  code_eq : s.code = c
  steps_eq : s.steps = c.stepsOf done
  dead_eq : s.options.keepDead = false → s.dead = g.deadBlocks
  dominators_eq : s.dominators = some (g.keptDominators s.options.keepDead)
  backbone_eq : s.backbone =
    (g.keptDominators s.options.keepDead).backbone (g.kept s.options.keepDead)
  feeding : (g.kept s.options.keepDead).Feeding s.graph

/-- What holds after a lift that succeeded. -/
structure Lifted (c : Code) (done : List Int) (g : Graph) (s : Lifter) : Prop
    extends Surveyed c done g s where
  verified : s.graph.verifyPhis = .ok ()

theorem Surveyed.tell {c : Code} {done : List Int} {g : Graph} {s : Lifter} {e : Trace.Event}
    (h : Surveyed c done g s) (he : e.step? = none) : Surveyed c done g (s.tell e) :=
  ⟨h.traversed, h.code_eq, (s.aside_tell he).steps_eq.trans h.steps_eq, h.dead_eq,
    h.dominators_eq, h.backbone_eq, h.feeding⟩

/-- The passes complete all phis, or stop at one that cannot be completed.  The graph is what the
completion leaves. -/
theorem passes_completion {c : Code} {done : List Int} {s : Lifter} (hc : c.Sound)
    (h : s.graph.Traversed c done) (hcode : s.code = c) (hsteps : s.steps = c.stepsOf done) :
    ∃ s' r, s'.options = s.options ∧ s'.graph = r.graph ∧
      ((s.graph.kept s.options.keepDead).completePhis (Lift.depthLimit c) = .ok () r ∧
          (Lift.findDominators >>= fun _ => Lift.completePhis >>= fun _ => Lift.finish) s =
            .ok () s' ∧ Lifted c done s.graph s' ∨
        Surveyed c done s.graph s' ∧ ∃ e b slot,
          (s.graph.kept s.options.keepDead).completePhis (Lift.depthLimit c) =
            .error (.error e) r ∧
          (Lift.findDominators >>= fun _ => Lift.completePhis >>= fun _ => Lift.finish) s =
            .error (.error (.stack e)) s' ∧ s'.graph.Stuck (Lift.depthLimit c) b slot e) := by
  have hwf := h.divided.wellFormed
  obtain ⟨s₁, hfind, hcode₁, hoptions₁, hsteps₁, hgraph₁, hdead₁, hdominators₁,
      hbackbone₁⟩ :=
    Lift.exists_findDominators hwf.ordered h.predsInside (h.inRange hc)
  have hcompletable := h.completable_kept hc s.options.keepDead
  rw [← hgraph₁] at hcompletable
  -- whatever the completion comes to, only the graph and what is told have changed
  have hsurveyed : ∀ r : PhiCompletion.State, s₁.graph.Filling none r.graph →
      (∀ e ∈ r.events, e.step? = none) →
      Surveyed c done s.graph { s₁ with graph := r.graph, events := s₁.events ++ r.events } := by
    intro r hfilling hquiet
    rw [hgraph₁] at hfilling
    refine ⟨h, hcode₁.trans hcode, ?_, ?_, ?_, ?_, ?_⟩
    · rw [← hsteps, ← hsteps₁]
      exact s₁.steps_tellAll fun e he => hquiet e (Array.mem_toList_iff.1 he)
    · exact fun hkeep => hdead₁ (hoptions₁ ▸ hkeep)
    · rw [hdominators₁, hoptions₁]
    · rw [hbackbone₁, hoptions₁]
    · rw [hoptions₁]
      exact h.feeding_kept hfilling
  have hlimit : Lift.depthLimit s₁.code = Lift.depthLimit c := by rw [hcode₁, hcode]
  rw [bind_of_ok hfind, ← hgraph₁, ← hlimit]
  rcases hcompletable.completePhis_total (Lift.depthLimit s₁.code) with
    ⟨r, hr⟩ | ⟨e, r, hr, hfilling, hquiet, b, -, slot, hstuck⟩
  · obtain ⟨hcompleting, hempty⟩ := hcompletable.completePhis_ok hr
    have hverified := Graph.verifyPhis_of_completing hcompleting hempty
    obtain ⟨e, he, hfinish⟩ := Lift.exists_finish
      (s := { s₁ with graph := r.graph, events := s₁.events ++ r.events }) hverified
    refine ⟨_, r, ?_, ?_, .inl ⟨hr, (bind_of_ok (Lift.completePhis_of_ok hr)).trans hfinish,
      (hsurveyed r hcompleting.filling hcompleting.quiet).tell he, hverified⟩⟩
    · exact hoptions₁
    · rfl
  · exact ⟨{ s₁ with graph := r.graph, events := s₁.events ++ r.events }, r, hoptions₁, rfl,
      .inr ⟨hsurveyed r hfilling hquiet, e, b, slot, hr,
        bind_of_error (Lift.completePhis_of_error hr), hstuck⟩⟩

/-- The passes complete all phis, or stop at one that cannot be completed. -/
theorem passes_cases {c : Code} {done : List Int} {s : Lifter} (hc : c.Sound)
    (h : s.graph.Traversed c done) (hcode : s.code = c) (hsteps : s.steps = c.stepsOf done) :
    ∃ s', s'.options = s.options ∧
      ((Lift.findDominators >>= fun _ => Lift.completePhis >>= fun _ => Lift.finish) s = .ok () s' ∧
          Lifted c done s.graph s' ∨
        Surveyed c done s.graph s' ∧ ∃ e b slot,
          (Lift.findDominators >>= fun _ => Lift.completePhis >>= fun _ => Lift.finish) s =
            .error (.error (.stack e)) s' ∧ s'.graph.Stuck (Lift.depthLimit c) b slot e) := by
  obtain ⟨s', r, hoptions, -, ⟨-, hlifted⟩ | ⟨hsurveyed, e, b, slot, -, hstop⟩⟩ :=
    passes_completion hc h hcode hsteps
  · exact ⟨s', hoptions, .inl hlifted⟩
  · exact ⟨s', hoptions, .inr ⟨hsurveyed, e, b, slot, hstop⟩⟩

/-- Whether a lifter was just made and told nothing but that spans were opened. -/
structure IsOpened (c : Code) (options : LiftOptions) (s : Lifter) : Prop where
  code_eq : s.code = c
  options_eq : s.options = options
  graph_eq : s.graph = (ofCode c options).graph
  pending_eq : s.pending = (ofCode c options).pending
  processed_eq : s.processed = (ofCode c options).processed
  line_eq : s.line = 0
  opens : ∀ e ∈ s.events, e.kind = .opens

/-- Whether a graph is what the walks over the blocks of a function come to. -/
def WalkedTo (c : Code) (options : LiftOptions) (g : Graph) : Prop :=
  ∃ s s', IsOpened c options s ∧ Lift.traverse c.at? (Lift.traverseFuel c) s = .ok () s' ∧
    s'.graph = g

/-- A lifter that told what it lifts, as a lift of it begins. -/
def opening (s : Lifter) : Lifter :=
  s.tell (.opens "symbolic: interpret" [("func", .text s.code.name),
    ("insts", .int s.code.instructions.length), ("labels", .int s.code.labels.length)])

theorem lift_eq (s : Lifter) : s.lift = close LiftError.message (Lift.all s.opening) := rfl

theorem isOpened_ofCode (c : Code) (options : LiftOptions) :
    IsOpened c options (ofCode c options) :=
  ⟨rfl, rfl, rfl, rfl, rfl, rfl, fun e he => absurd he (Array.not_mem_empty e)⟩

namespace IsOpened

variable {c : Code} {options : LiftOptions} {s s' : Lifter}

theorem tell (h : IsOpened c options s) {e : Trace.Event} (he : e.kind = .opens) :
    IsOpened c options (s.tell e) := by
  refine ⟨h.code_eq, h.options_eq, h.graph_eq, h.pending_eq, h.processed_eq, h.line_eq,
    fun e' he' => ?_⟩
  rcases Array.mem_push.1 he' with he' | rfl
  · exact h.opens e' he'
  · exact he

theorem opening (h : IsOpened c options s) : IsOpened c options s.opening := h.tell rfl

theorem start (h : IsOpened c options s) : IsOpened c options { s with started := true } :=
  ⟨h.code_eq, h.options_eq, h.graph_eq, h.pending_eq, h.processed_eq, h.line_eq, h.opens⟩

theorem steps_eq (h : IsOpened c options s) : s.steps = [] := by
  apply List.filterMap_eq_nil_iff.2
  intro e he
  unfold Trace.Event.step?
  rw [h.opens e (Array.mem_toList_iff.1 he)]

/-- Only the entry is marked. -/
theorem eq_zero_of_holds (h : IsOpened c options s) {o : Int} (ho : s.pending.Holds o) : o = 0 := by
  have hzero := BitSet.holds_setBit (s := BitSet.empty 0) (k := 0) (Int.le_refl 0)
  rw [h.pending_eq] at ho
  exact ((hzero o).1 ho).resolve_right (BitSet.not_holds_empty o)

/-- A lifter that was just made is ready to walk. -/
theorem progress (h : IsOpened c options s) : Progress c [] none s ∧ Rooted c [] s := by
  refine ⟨(progress_ofCode c options).of_eq h.code_eq h.graph_eq h.pending_eq h.processed_eq,
    fun p hp avoid _ => ?_, .nil⟩
  rw [h.eq_zero_of_holds (hp.resolve_right (by simp))]
  exact .entry

/-- The passes, taken together. -/
theorem all_ok (h : IsOpened c options s) (hc : c.Sound) (hok : Lift.all s = .ok () s') :
    s'.options = options ∧ ∃ done g, WalkedTo c options g ∧ Lifted c done g s' := by
  obtain ⟨e, s₀, hstop, -⟩ | heq := Lift.all_cases s
  · rw [hstop] at hok
    cases hok
  · rw [heq] at hok
    obtain rfl := h.code_eq
    obtain ⟨⟨⟩, s₁, htraverse, hok⟩ := bind_eq_ok.1 hok
    have hstarted := h.start
    obtain ⟨done, hprogress, hrooted, hsteps, hoptions₁, hnone⟩ := Lift.traverse_progress hc
      hstarted.progress.1 hstarted.progress.2 hstarted.steps_eq htraverse
    obtain ⟨s₂, hoptions₂, ⟨hpasses, hlifted⟩ | ⟨-, e, b, slot, hpasses, -⟩⟩ :=
      passes_cases hc (hprogress.traversed hrooted hnone) hprogress.code_eq hsteps
    · rw [hpasses] at hok
      cases hok
      exact ⟨hoptions₂.trans (hoptions₁.trans hstarted.options_eq), done, s₁.graph,
        ⟨_, s₁, hstarted, htraverse, rfl⟩, hlifted⟩
    · rw [hpasses] at hok
      cases hok

/-- A lift that succeeds walks all blocks and then completes the phis of those that are kept. -/
theorem lift_ok (h : IsOpened c options s) (hc : c.Sound) (hok : s.lift = .ok () s') :
    s'.options = options ∧ ∃ done g, WalkedTo c options g ∧ Lifted c done g s' := by
  rw [lift_eq] at hok
  unfold close at hok
  split at hok
  · rename_i s₁ hall
    cases hok
    obtain ⟨hoptions, done, g, hwalked, hlifted⟩ := h.opening.all_ok hc hall
    exact ⟨hoptions, done, g, hwalked, hlifted.tell rfl, hlifted.verified⟩
  · cases hok

end IsOpened

theorem lift_ok {c : Code} {options : LiftOptions} {s : Lifter} (hc : c.Sound)
    (hok : (ofCode c options).lift = .ok () s) :
    s.options = options ∧ ∃ done g, Lifted c done g s := by
  obtain ⟨hoptions, done, g, -, hlifted⟩ := (isOpened_ofCode c options).lift_ok hc hok
  exact ⟨hoptions, done, g, hlifted⟩

/-- A function that is compiled is lifted. -/
theorem compile_ok {c : Code} {options : LiftOptions} {s : Lifter} (hc : c.Sound)
    (hok : compile c options = .ok () s) :
    s.options = options ∧ ∃ done g, WalkedTo c options g ∧ Lifted c done g s := by
  unfold compile close at hok
  split at hok
  · rename_i s₁ hlift
    cases hok
    obtain ⟨hoptions, done, g, hwalked, hlifted⟩ :=
      ((isOpened_ofCode c options).tell rfl).lift_ok hc hlift
    exact ⟨hoptions, done, g, hwalked, hlifted.tell rfl, hlifted.verified⟩
  · cases hok

/-! ## What was stepped -/

/-- The instructions that were stepped in a block. -/
def stepsIn (s : Lifter) (b : BlockId) : List Instruction :=
  (s.steps.filter (·.1 == s.graph.nameOf b)).map (·.2)

/-- Whether a block is the body of a loop, the header of which was stepped. -/
def entersLoop (s : Lifter) (b : BlockId) : Bool :=
  s.steps.any fun (_, i) => i.op.effect? == some .forLoop && i.next == s.graph.offset b

end Lifter

/-- Blocks at different offsets have different names. -/
theorem blockName_inj {o o' : Int} (h : blockName o = blockName o') : o = o' :=
  Int.repr_inj.1 ((String.append_right_inj "b").1 h)

/-- What is stepped under the name of a block is its run. -/
theorem Code.filter_stepsOf (c : Code) {done : List Int} (hnodup : done.Nodup) {o : Int}
    (ho : o ∈ done) :
    ((c.stepsOf done).filter (·.1 == blockName o)).map (·.2) = c.blockRun o := by
  have hother : ∀ {l : List Int}, o ∉ l → (c.stepsOf l).filter (·.1 == blockName o) = [] := by
    intro l hl
    refine List.filter_eq_nil_iff.2 fun p hp => ?_
    obtain ⟨o', ho', i, -, rfl⟩ := by simpa [stepsOf] using hp
    exact fun heq => hl (blockName_inj (beq_iff_eq.1 heq) ▸ ho')
  induction done with
  | nil => cases ho
  | cons p done ih =>
    obtain ⟨hp, hnodup⟩ := List.nodup_cons.1 hnodup
    have hcons : c.stepsOf (p :: done) =
        (c.blockRun p).map (fun i => (blockName p, i)) ++ c.stepsOf done := List.flatMap_cons
    rw [hcons, List.filter_append, List.map_append]
    rcases List.mem_cons.1 ho with rfl | ho
    · rw [hother hp, List.filter_eq_self.2 (by simp)]
      simp [Function.comp_def]
    · have hne : blockName p ≠ blockName o := fun heq => hp (blockName_inj heq ▸ ho)
      rw [ih hnodup ho, List.filter_eq_nil_iff.2 (by simp [hne])]
      rfl

namespace Lifter.Surveyed

variable {c : Code} {done : List Int} {g : Graph} {s : Lifter} {b : BlockId}

/-- After all blocks were walked, blocks only get phis. -/
theorem block_eq (h : Surveyed c done g s) (b : BlockId) :
    ∃ phis, s.graph.block b = { g.block b with phis } := by
  have := h.feeding.fields b
  rwa [Graph.kept_eq] at this

theorem offset_eq (h : Surveyed c done g s) (b : BlockId) : s.graph.offset b = g.offset b := by
  obtain ⟨phis, hblock⟩ := h.block_eq b
  rw [Graph.offset, hblock, Graph.offset]

theorem succs_eq (h : Surveyed c done g s) (b : BlockId) :
    (s.graph.block b).succs = (g.block b).succs := by
  obtain ⟨phis, hblock⟩ := h.block_eq b
  rw [hblock]

theorem body_eq (h : Surveyed c done g s) (b : BlockId) :
    (s.graph.block b).body = (g.block b).body := by
  obtain ⟨phis, hblock⟩ := h.block_eq b
  rw [hblock]

theorem phis_mono (h : Surveyed c done g s) {k : Nat} {v : ValueId}
    (hv : (g.block b).phis[k]? = some v) : (s.graph.block b).phis[k]? = some v := by
  refine h.feeding.phis_mono b k v ?_
  rwa [Graph.kept_eq]

/-- After all blocks were walked, only phis change. -/
theorem definition_eq (h : Surveyed c done g s) {v : ValueId} (hlt : v < g.definitions.size)
    (hv : (g.definition v).phi? = none) : s.graph.definition v = g.definition v := by
  have hfeeding := h.feeding
  rw [Graph.kept_eq] at hfeeding
  exact hfeeding.definition_eq v hlt hv

theorem mem_live_iff (h : Surveyed c done g s) (hc : c.Sound) (b : BlockId) :
    b ∈ s.graph.live ↔ b ∈ g.live ∧ (s.options.keepDead = true ∨ g.offset b ∈ done) := by
  rw [h.feeding.live_eq, h.traversed.mem_live_kept_iff hc]

theorem ordered (h : Surveyed c done g s) : s.graph.Ordered := by
  have := h.traversed.ordered_kept s.options.keepDead
  rw [Graph.Ordered, ← h.feeding.live_eq] at this
  refine this.imp fun {a b} hab => ?_
  rw [h.offset_eq, h.offset_eq]
  rwa [Graph.kept_eq] at hab

/-- The entry is a block of the graph. -/
theorem entry?_eq_some_iff (h : Surveyed c done g s) (hc : c.Sound) (e : BlockId) :
    s.graph.entry? = some e ↔ e ∈ g.live ∧ g.offset e = 0 := by
  rw [Graph.entry?, h.ordered.find?_eq_some_iff, h.mem_live_iff hc, h.offset_eq]
  refine ⟨fun he => ⟨he.1.1, he.2⟩, fun he => ⟨⟨he.1, .inr ?_⟩, he.2⟩⟩
  rw [he.2]
  exact h.traversed.entry_done

/-- The paths are those of the graph when all blocks were walked. -/
theorem trail_iff (h : Surveyed c done g s) {e : BlockId} {path : List BlockId} :
    s.graph.Trail e path ↔ g.Trail e path := by
  constructor
  · intro htrail
    induction htrail with
    | entry => exact .entry
    | step _ ha ih => exact .step ih (h.succs_eq _ ▸ ha)
  · intro htrail
    induction htrail with
    | entry => exact .entry
    | step _ ha ih => exact .step ih (by rwa [h.succs_eq])

theorem stepsIn_eq (h : Surveyed c done g s) (ho : g.offset b ∈ done) :
    s.stepsIn b = c.blockRun (g.offset b) := by
  rw [stepsIn, Graph.nameOf, h.offset_eq, h.steps_eq, c.filter_stepsOf h.traversed.nodup ho]

theorem entersLoop_eq (h : Surveyed c done g s) (b : BlockId) :
    s.entersLoop b = c.isLoopBody done (g.offset b) := by
  rw [entersLoop, h.offset_eq, h.steps_eq, Code.stepsOf, Code.isLoopBody]
  simp [List.any_flatMap, List.any_map, Function.comp_def]

end Lifter.Surveyed

/-! ## Lifting a listing -/

/-- Whether a listing can be built and lifted to something that passes a check. -/
def Listing.lifts (l : Listing) (check : Lifter → Bool) : Bool :=
  match l.build with
  | .ok c =>
    match (Lifter.ofCode c {}).lift with
    | .ok () s => check s
    | .error _ _ => false
  | .error _ => false

theorem Listing.exists_of_lifts {l : Listing} {check : Lifter → Bool}
    (h : l.lifts check = true) :
    ∃ c s, l.build = .ok c ∧ (Lifter.ofCode c {}).lift = .ok () s ∧ check s = true := by
  unfold lifts at h
  split at h
  · rename_i c hbuild
    split at h
    · rename_i s hlift
      exact ⟨c, s, hbuild, hlift, h⟩
    · cases h
  · cases h

/-- A loop over the argument, with a label behind it that control does not reach. -/
def Listing.loop : Listing where
  args := ["x"]
  code := "LOAD_FAST 0\nhead:\nFOR_ITER end\nJUMP_ABSOLUTE head\nend:\nRETURN_VALUE\n" ++
    "dead:\nJUMP_ABSOLUTE dead\n"

end StackLift
