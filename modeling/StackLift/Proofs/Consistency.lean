/-
# Graphs stay consistent

A graph is worked on by operations on its blocks, by completing its phis and by removing its dead
blocks.  As long as the blocks that are worked on are in the graph, its edges, slots and values fit
together, also after operations that are refused and completions that stop half-way.

* `Graph.Housed` : every value is in the code of one block, once;
* `Graph.Consistent` : what holds of all blocks, those that were removed included;
* `Graph.Consistent.perform`, `Graph.Consistent.afterCompletion`, `Graph.Consistent.stripDead` :
  what one step keeps;
* `Graph.Reached.exists_recorded` : sheets can be kept beside a graph through any steps;
* `Graph.Reached.fits` : what holds after any steps.
-/
import StackLift.Proofs.Sheets

namespace StackLift

namespace Graph

variable {g g' : Graph} {a b : BlockId}

/-! ## Values in blocks -/

/-- Whether every value is in the code of its block, and nothing else is there, and nothing
twice. -/
structure Housed (g : Graph) : Prop where
  code_nodup : ∀ b, (g.block b).code.Nodup
  mem_code_iff : ∀ b v, v ∈ (g.block b).code ↔ v < g.valueCount ∧ (g.definition v).block = b
  place_lt : ∀ v < g.valueCount, (g.definition v).block < g.blocks.size

namespace Housed

/-- What changes neither the code of blocks nor the places of values leaves them housed. -/
theorem of_same (h : g.Housed) (hcount : g'.valueCount = g.valueCount)
    (hplace : ∀ v, (g'.definition v).block = (g.definition v).block)
    (hsize : g.blocks.size ≤ g'.blocks.size)
    (hcode : ∀ b, (g'.block b).code = (g.block b).code) : g'.Housed where
  code_nodup b := by
    rw [hcode]
    exact h.code_nodup b
  mem_code_iff b v := by rw [hcode, hcount, hplace, h.mem_code_iff]
  place_lt v hv := by
    rw [hplace]
    exact Nat.lt_of_lt_of_le (h.place_lt v (hcount ▸ hv)) hsize

/-- A new value is put somewhere into the code of its block. -/
theorem add (h : g.Housed) (hb : b < g.blocks.size) {line : Int} {e : Option Expr}
    (hdefs : g'.definitions = (g.addDefinition b line e).definitions)
    (hsize : g'.blocks.size = g.blocks.size)
    (hself : (g'.block b).code.Perm (g.valueCount :: (g.block b).code))
    (hothers : ∀ a, a ≠ b → g'.block a = g.block a) : g'.Housed := by
  have hcount : g'.valueCount = g.valueCount + 1 := by
    rw [valueCount, hdefs, count_addDefinition, valueCount]
  have hdef : ∀ v, g'.definition v =
      if v = g.valueCount then ⟨line, b, e⟩ else g.definition v := fun v => by
    rw [definition, hdefs]
    exact g.definition_addDefinition b line e v
  have hnew : g.valueCount ∉ (g.block b).code := fun hmem =>
    Nat.lt_irrefl _ ((h.mem_code_iff b _).1 hmem).1
  refine ⟨?_, ?_, ?_⟩
  · intro a
    by_cases hab : a = b
    · rw [hab, hself.nodup_iff]
      exact List.nodup_cons.2 ⟨hnew, h.code_nodup b⟩
    · rw [hothers a hab]
      exact h.code_nodup a
  · intro a v
    rw [hcount, hdef, Nat.lt_succ_iff_lt_or_eq]
    by_cases hab : a = b
    · rw [hab, hself.mem_iff, List.mem_cons, h.mem_code_iff]
      by_cases hv : v = g.valueCount
      · simp [hv]
      · simp [hv]
    · rw [hothers a hab, h.mem_code_iff]
      by_cases hv : v = g.valueCount
      · simp [hv, Ne.symm hab]
      · simp [hv]
  · intro v hv
    rw [hcount, Nat.lt_succ_iff_lt_or_eq] at hv
    rw [hdef, hsize]
    split
    · exact hb
    · rename_i hne
      exact h.place_lt v (hv.resolve_right hne)

/-- A value that is defined is put at the end of the code. -/
theorem define (h : g.Housed) (hb : b < g.blocks.size) (line : Int) (e : Option Expr) :
    (g.define b line e).2.Housed := by
  have hw := g.worksIn_define b line e
  refine h.add hb rfl hw.size_eq ?_ hw.others
  rw [Graph.define, block_modifyBlock_self (by simpa using hb)]
  simp only [Block.code, block_addDefinition, Array.toList_push, ← List.append_assoc]
  exact List.perm_append_singleton ..

/-- A phi is put between the phis and the other values. -/
theorem addSlot (h : g.Housed) (hb : b < g.blocks.size) (line : Int) :
    (g.addSlot b line).Housed := by
  have hw := g.worksIn_addSlot b line
  refine h.add hb rfl hw.size_eq ?_ hw.others
  rw [block_addSlot_self hb]
  simp only [Block.code, Array.toList_push, List.append_assoc, List.singleton_append]
  exact List.perm_middle

theorem addSlots (h : g.Housed) (hb : b < g.blocks.size) (line : Int) (n : Nat) :
    (g.addSlots b line n).Housed := by
  induction n generalizing g with
  | zero => exact h
  | succ n ih => exact ih (h.addSlot hb line) ((g.worksIn_addSlot b line).size_eq ▸ hb)

/-- The values of all blocks are all values. -/
theorem perm (h : g.Housed) : ((List.range g.blocks.size).flatMap fun b => (g.block b).code).Perm
    (List.range g.valueCount) := by
  refine (List.perm_ext_iff_of_nodup ?_ List.nodup_range).2 fun v => ?_
  · refine List.nodup_flatMap.2 ⟨fun b _ => h.code_nodup b, List.nodup_range.imp ?_⟩
    intro a b hab v hva hvb
    exact hab (((h.mem_code_iff a v).1 hva).2.symm.trans ((h.mem_code_iff b v).1 hvb).2)
  · simp only [List.mem_flatMap, List.mem_range, h.mem_code_iff]
    constructor
    · rintro ⟨b, -, hv, -⟩
      exact hv
    · intro hv
      exact ⟨_, h.place_lt v hv, hv, rfl⟩

end Housed

/-! ## Consistent graphs -/

/-- Several may be added, and none of them is there twice. -/
theorem nodup_foldl_addNew {α : Type} [DecidableEq α] {l : List α} (h : l.Nodup) (ys : List α) :
    (ys.foldl (fun l y => addNew y l) l).Nodup := by
  induction ys generalizing l with
  | nil => exact h
  | cons y ys ih => exact ih (nodup_addNew h)

/-- What holds of a graph that is worked on.  A block that was removed has no edges. -/
structure Consistent (g : Graph) : Prop extends g.Regular, g.Housed where
  succs_nodup : ∀ b, (g.block b).succs.Nodup
  succs_live : ∀ b, ∀ s ∈ (g.block b).succs, b ∈ g.live ∧ s ∈ g.live
  targets_mem : ∀ b t, (g.block b).terminator = some t → ∀ n ∈ t.targets, n ∈ (g.block b).succs
  used_le : ∀ b, (g.block b).used ≤ (g.block b).phis.size

/-- A graph without blocks is consistent. -/
theorem consistent_empty : empty.Consistent where
  toRegular := wellFormed_empty.regular
  code_nodup _ := List.nodup_nil
  mem_code_iff _ _ := iff_of_false List.not_mem_nil fun h => Nat.not_lt_zero _ h.1
  place_lt _ hv := absurd hv (Nat.not_lt_zero _)
  succs_nodup _ := List.nodup_nil
  succs_live _ _ hs := absurd hs List.not_mem_nil
  targets_mem _ _ ht := by cases ht
  used_le _ := Nat.le_refl _

namespace Consistent

/-- Both ends of an edge are in the graph. -/
theorem preds_live (h : g.Consistent) (ha : a ∈ (g.block b).preds) : a ∈ g.live ∧ b ∈ g.live :=
  h.succs_live a b ((h.edge_iff a b).2 ha)

/-- A block without edges is taken out of the graph. -/
theorem discard (h : g.Consistent) (hdead : (g.block b).isDead = true) :
    (g.discard b).Consistent := by
  obtain ⟨hpreds, hsuccs⟩ : (g.block b).preds = [] ∧ (g.block b).succs = [] := by
    simpa [Block.isDead] using hdead
  have hstays : ∀ {a}, a ∈ g.live → a ≠ b → a ∈ (g.discard b).live := fun ha hab =>
    (List.mem_erase_of_ne hab).2 ha
  refine ⟨?_, h.toHoused.of_same rfl (fun _ => rfl) (Nat.le_refl _) fun _ => rfl, h.succs_nodup,
    ?_, h.targets_mem, h.used_le⟩
  · exact h.toRegular.of_same List.erase_sublist rfl (fun _ => rfl) (fun _ => rfl) (fun _ => rfl)
      h.slotted
  · intro a s hs
    obtain ⟨ha, hs'⟩ := h.succs_live a s hs
    refine ⟨hstays ha ?_, hstays hs' ?_⟩
    · rintro rfl
      have hnil : s ∈ (g.block a).succs := hs
      rw [hsuccs] at hnil
      cases hnil
    · rintro rfl
      have hnil := (h.edge_iff a s).1 hs
      rw [hpreds] at hnil
      cases hnil

/-- Only blocks without edges can be removed. -/
theorem remove (h : g.Consistent) (hok : g.remove b = .ok g') : g'.Consistent := by
  obtain ⟨hdead, -, rfl⟩ := remove_eq_ok_iff.1 hok
  exact h.discard hdead

/-- The dead blocks are removed one by one, and none of them has edges. -/
theorem stripDead (h : g.Consistent) : g.stripDead.2.Consistent := by
  have key : ∀ (dead : List BlockId) (g : Graph), g.Consistent →
      (∀ b ∈ dead, (g.block b).isDead = true) → (dead.foldl Graph.discard g).Consistent := by
    intro dead
    induction dead with
    | nil => exact fun g h _ => h
    | cons b dead ih =>
      intro g h hdead
      exact ih _ (h.discard (hdead b List.mem_cons_self)) fun a ha =>
        hdead a (List.mem_cons_of_mem b ha)
  refine key _ g h fun b hb => ?_
  exact (Bool.and_eq_true_iff.1 (List.mem_filter.1 hb).2).2

/-- A new block has neither values nor edges. -/
theorem addBlock (h : g.Consistent) {o : Int} (ho : g.find? o = none) :
    (g.addBlock o).Consistent := by
  have hblock : ∀ a, ∃ offset, (g.addBlock o).block a = { g.block a with offset } := by
    intro a
    rcases g.block_addBlock_cases o a with ⟨hnew, hdefault⟩ | hsame
    · exact ⟨o, by rw [hnew, hdefault]; rfl⟩
    · exact ⟨_, hsame⟩
  refine ⟨h.toRegular.addBlock ho, h.toHoused.of_same rfl (fun _ => rfl) ?_ ?_, ?_, ?_, ?_, ?_⟩
  · rw [size_addBlock]
    exact Nat.le_succ _
  · intro a
    obtain ⟨offset, ha⟩ := hblock a
    rw [ha]
    rfl
  · intro a
    obtain ⟨offset, ha⟩ := hblock a
    rw [ha]
    exact h.succs_nodup a
  · intro a s hs
    obtain ⟨offset, ha⟩ := hblock a
    rw [ha] at hs
    have hlive := h.succs_live a s hs
    exact ⟨(mem_live_addBlock g o a).2 (.inr hlive.1), (mem_live_addBlock g o s).2 (.inr hlive.2)⟩
  · intro a
    obtain ⟨offset, ha⟩ := hblock a
    rw [ha]
    exact h.targets_mem a
  · intro a
    obtain ⟨offset, ha⟩ := hblock a
    rw [ha]
    exact h.used_le a

theorem ensure (h : g.Consistent) (o : Int) : (g.ensure o).2.Consistent := by
  unfold Graph.ensure
  split
  · exact h
  · rename_i hnone
    exact h.addBlock hnone

/-- Work in a block leaves a graph consistent if phis stay in their slots, values are housed and the
slots that were popped are there. -/
theorem worksIn (h : g.Consistent) (hw : WorksIn b g g') (hslotted : g'.Slotted)
    (hhoused : g'.Housed) (hused : (g'.block b).used ≤ (g'.block b).phis.size) :
    g'.Consistent := by
  refine ⟨h.toRegular.worksIn hw hslotted, hhoused, ?_, ?_, ?_, ?_⟩
  · intro a
    rw [hw.succs_eq]
    exact h.succs_nodup a
  · intro a s hs
    rw [hw.succs_eq] at hs
    rw [hw.live_eq]
    exact h.succs_live a s hs
  · intro a
    rw [hw.succs_eq, hw.terminator_eq]
    exact h.targets_mem a
  · intro a
    by_cases hab : a = b
    · rwa [hab]
    · rw [hw.others a hab]
      exact h.used_le a

/-- New slots are made behind those that are there, so what was popped is still there. -/
theorem reach (h : g.Consistent) (hb : b < g.blocks.size) (line : Int) (depth : Nat) :
    (g.reach b line depth).Consistent := by
  refine h.worksIn (g.worksIn_reach b line depth) (h.slotted.addSlots b line _)
    (h.toHoused.addSlots hb line _) ?_
  obtain ⟨new, -, hblock⟩ := block_reach_self hb line depth
  rw [hblock, Array.size_append]
  exact Nat.le_trans (h.used_le b) (Nat.le_add_right ..)

/-- A block may be asked for a slot that it is left with. -/
theorem exitSlot (h : g.Consistent) (hb : b < g.blocks.size) (line : Int) (depth : Nat) :
    (g.exitSlot b line depth).2.Consistent := by
  rcases Nat.lt_or_ge depth (g.block b).stack.length with hlt | hge
  · rw [exitSlot_of_lt hlt]
    exact h
  · rw [exitSlot_of_ge hge]
    exact h.reach hb line _

theorem peek (h : g.Consistent) (hb : b < g.blocks.size) (line : Int) :
    (g.peek b line).2.Consistent := by
  unfold Graph.peek
  split
  · exact h
  · exact h.reach hb line _

/-- The stack of a block can be changed, as long as the slots that were popped are there. -/
theorem modifyBlock {f : Block → Block} (h : g.Consistent)
    (hf : ∃ stack used, f (g.block b) = { g.block b with stack, used })
    (hused : (f (g.block b)).used ≤ (g.block b).phis.size) : (g.modifyBlock b f).Consistent := by
  obtain ⟨stack, used, heq⟩ := hf
  have hphis : (f (g.block b)).phis = (g.block b).phis := by rw [heq]
  refine h.worksIn (worksIn_modifyBlock ⟨stack, used, heq⟩) (h.slotted.modifyBlock hphis)
    (h.toHoused.of_same rfl (fun _ => rfl) ?_ ?_) ?_
  · rw [size_modifyBlock]
  · intro a
    rw [block_modifyBlock]
    split
    · rename_i hab
      rw [hab.1, heq]
      rfl
    · rfl
  · rw [block_modifyBlock]
    split
    · rwa [hphis]
    · exact h.used_le b

/-- An entry slot that is popped has its phi by then. -/
theorem pop (h : g.Consistent) (hb : b < g.blocks.size) (line : Int) :
    (g.pop b line).2.Consistent := by
  rw [pop_eq]
  refine (h.peek hb line).modifyBlock (exists_dropTop_eq _) ?_
  cases hstack : ((g.peek b line).2.block b).stack with
  | nil =>
    rw [dropTop_of_nil hstack]
    exact used_lt_of_peek hb line hstack
  | cons u rest =>
    rw [dropTop_of_cons hstack]
    exact (h.peek hb line).used_le b

theorem push (h : g.Consistent) (b : BlockId) (x : Operand) : (g.push b x).Consistent :=
  h.modifyBlock ⟨_, _, rfl⟩ (h.used_le b)

/-- A value at the end of the code changes no slot. -/
theorem define (h : g.Consistent) (hb : b < g.blocks.size) (line : Int) (e : Option Expr) :
    (g.define b line e).2.Consistent := by
  refine h.worksIn (g.worksIn_define b line e) (h.slotted.define b line e)
    (h.toHoused.define hb line e) ?_
  rw [Graph.define, block_modifyBlock_self (by simpa using hb)]
  exact h.used_le b

/-- Two blocks of a graph are connected. -/
theorem connect {n : BlockId} (h : g.Consistent) (hb : b ∈ g.live) (hn : n ∈ g.live) :
    (g.connect b n).Consistent := by
  have hltb := h.lt_size b hb
  have hltn := h.lt_size n hn
  have hblock := block_connect hltb hltn
  have hmem : ∀ a s, s ∈ ((g.connect b n).block a).succs ↔
      s ∈ (g.block a).succs ∨ a = b ∧ s = n := by
    intro a s
    rw [hblock]
    by_cases hab : a = b
    · simp [hab, mem_addNew, or_comm]
    · simp [hab]
  refine ⟨h.toRegular.connect hltb hltn, h.toHoused.of_same rfl (fun _ => rfl) ?_ ?_, ?_, ?_, ?_,
    ?_⟩
  · rw [size_connect]
  · intro a
    rw [hblock]
    rfl
  · intro a
    rw [hblock]
    dsimp only
    split
    · exact nodup_addNew (h.succs_nodup a)
    · exact h.succs_nodup a
  · intro a s hs
    rcases (hmem a s).1 hs with hs | ⟨rfl, rfl⟩
    · exact h.succs_live a s hs
    · exact ⟨hb, hn⟩
  · intro a t ht m hm
    rw [hblock] at ht
    exact (hmem a m).2 (.inl (h.targets_mem a t ht m hm))
  · intro a
    rw [hblock]
    exact h.used_le a

/-- A block of a graph is left for other blocks of it. -/
theorem terminate {line : Int} {t : Terminator} (h : g.Consistent) (hb : b ∈ g.live)
    (ht : ∀ n ∈ t.targets, n ∈ g.live) (hok : g.terminate b line t = .ok g') :
    g'.Consistent := by
  have hlt := h.lt_size b hb
  have hltt : ∀ n ∈ t.targets, n < g.blocks.size := fun n hn => h.lt_size n (ht n hn)
  have hblock := block_terminate hlt hltt hok
  have hmem := fun a s => (edges_terminate hlt hltt hok a s).1
  have hstays := stays_terminate hlt hltt hok
  obtain ⟨hlive, hdefs, hsize⟩ := terminate_frame hok
  refine ⟨h.toRegular.terminate hlt hltt hok, ?_, ?_, ?_, ?_, ?_⟩
  · refine h.toHoused.of_same ?_ ?_ (Nat.le_of_eq hsize.symm) ?_
    · rw [valueCount, hdefs, valueCount]
    · intro v
      rw [definition, hdefs, definition]
    · intro a
      rw [Block.code, (hstays a).2.1, (hstays a).2.2.1, Block.code]
  · intro a
    rw [hblock]
    split
    · exact nodup_foldl_addNew (h.succs_nodup a) t.targets
    · exact h.succs_nodup a
  · intro a s hs
    rw [hlive]
    rcases (hmem a s).1 hs with hs | ⟨rfl, hs⟩
    · exact h.succs_live a s hs
    · exact ⟨hb, ht s hs⟩
  · intro a t' ht' m hm
    rw [hmem]
    rw [hblock] at ht'
    split at ht'
    · rename_i hab
      cases ht'
      exact .inr ⟨hab, hm⟩
    · exact .inl (h.targets_mem a t' ht' m hm)
  · intro a
    rw [(hstays a).2.2.2, (hstays a).2.1]
    exact h.used_le a

/-- What flows into a phi can be changed. -/
theorem modifyPhi {v : ValueId} {p : Phi} {f : Phi → Phi} (h : g.Consistent)
    (hp : (g.definition v).phi? = some p) (hslot : (f p).slot = p.slot) :
    (g.modifyPhi v f).Consistent :=
  ⟨h.toRegular.modifyPhi hp hslot, h.toHoused.of_same (g.size_modifyPhi v f)
    (fun u => (g.place_modifyPhi v f u).1) (Nat.le_refl _) fun _ => rfl, h.succs_nodup,
    h.succs_live, h.targets_mem, h.used_le⟩

end Consistent

/-! ## Operations on blocks of the graph -/

/-- Whether the blocks that an operation works on or connects are in the graph. -/
def Operation.OnLive (g : Graph) : Operation → Prop
  | .ensure _ => True
  | .remove b => b ∈ g.live
  | .append b _ _ => b ∈ g.live
  | .connect b next => b ∈ g.live ∧ next ∈ g.live
  | .terminate b _ t => b ∈ g.live ∧ ∀ n ∈ t.targets, n ∈ g.live
  | .call b _ => b ∈ g.live

instance (g : Graph) (op : Operation) : Decidable (op.OnLive g) :=
  match op with
  | .ensure _ => isTrue trivial
  | .remove b => inferInstanceAs (Decidable (b ∈ g.live))
  | .append b _ _ => inferInstanceAs (Decidable (b ∈ g.live))
  | .connect b next => inferInstanceAs (Decidable (b ∈ g.live ∧ next ∈ g.live))
  | .terminate b _ t => inferInstanceAs (Decidable (b ∈ g.live ∧ ∀ n ∈ t.targets, n ∈ g.live))
  | .call b _ => inferInstanceAs (Decidable (b ∈ g.live))

/-- Any call on the stack of a block that was made. -/
theorem Consistent.answer (h : g.Consistent) (hb : b < g.blocks.size) (c : StackCall) :
    (g.answer b c).2.Consistent := by
  cases c with
  | push v => exact h.push b v
  | pop line => exact h.pop hb line
  | peek line => exact h.peek hb line
  | entrySlot line depth => exact h.reach hb line depth
  | exitSlot line depth => exact h.exitSlot hb line depth

/-- An operation on blocks of a graph leaves it consistent, also if it is refused. -/
theorem Consistent.perform (h : g.Consistent) {op : Operation} (hop : op.OnLive g) :
    (g.perform op).Consistent := by
  cases op with
  | ensure o => exact h.ensure o
  | remove b =>
    rw [Graph.perform]
    cases hok : g.remove b with
    | error i => exact h
    | ok g' => exact h.remove hok
  | append b line e => exact h.define (h.lt_size b hop) line e
  | connect b n => exact h.connect hop.1 hop.2
  | terminate b line t =>
    rw [Graph.perform]
    cases hok : g.terminate b line t with
    | error i => exact h
    | ok g' => exact h.terminate hop.1 hop.2 hok
  | call b c => exact h.answer (h.lt_size b hop) c

end Graph

/-! ## Completing phis -/

namespace PhiCompletion

variable {v : ValueId} {n : Nat} {s : State}

/-- What holds while a phi of a graph with so many blocks is completed. -/
structure Tends (v : ValueId) (n : Nat) (g : Graph) : Prop where
  consistent : g.Consistent
  isPhi : ∃ p, (g.definition v).phi? = some p
  size_eq : g.blocks.size = n

/-- The phi that is completed stays a phi. -/
theorem Tends.modifyPhi {g : Graph} {f : Phi → Phi} (h : Tends v n g)
    (hslot : ∀ p, (f p).slot = p.slot) : Tends v n (g.modifyPhi v f) := by
  obtain ⟨p, hp⟩ := h.isPhi
  refine ⟨h.consistent.modifyPhi hp (hslot p), ⟨f p, ?_⟩, h.size_eq⟩
  rw [Graph.definition_modifyPhi_self hp]
  rfl

/-- Asking a predecessor for a value makes no blocks. -/
theorem Tends.exitSlot {g : Graph} {b : BlockId} (h : Tends v n g) (hb : b < n) (line : Int)
    (depth : Nat) : Tends v n (g.exitSlot b line depth).2 := by
  obtain ⟨p, hp⟩ := h.isPhi
  have hw := g.worksIn_exitSlot b line depth
  refine ⟨h.consistent.exitSlot (h.size_eq ▸ hb) line depth, ⟨p, ?_⟩, hw.size_eq.trans h.size_eq⟩
  rwa [hw.definition_eq v (Graph.lt_of_phi?_eq_some hp)]

/-- A phi is given its value from a predecessor, or the predecessor is asked for it in vain. -/
theorem Tends.feed {b : BlockId} (h : Tends v n s.graph) (hb : b < n) (slot : Int) :
    Tends v n (after (feed v slot b s)).graph := by
  simp only [PhiCompletion.feed]
  unfold Graph.exitSlotAt
  by_cases hneg : slot < 0
  · rw [if_pos hneg]
    exact h
  · rw [if_neg hneg]
    have hasked := h.exitSlot hb (s.graph.lineOf b) slot.toNat
    dsimp only
    split
    · exact hasked
    · exact hasked.modifyPhi fun _ => rfl

/-- The predecessors are asked one after the other, up to where it stops. -/
theorem Tends.forM_feed {preds : List BlockId} (h : Tends v n s.graph)
    (hpreds : ∀ b ∈ preds, b < n) (slot : Int) :
    Tends v n (after (preds.forM (PhiCompletion.feed v slot) s)).graph := by
  induction preds generalizing s with
  | nil => exact h
  | cons b preds ih =>
    refine after_bind (I := fun s : State => Tends v n s.graph)
      (h.feed (hpreds b List.mem_cons_self) slot) fun _ s' _ hs' => ?_
    exact ih hs' fun a ha => hpreds a (List.mem_cons_of_mem b ha)

/-- Completing a phi leaves a consistent graph, also if it stops. -/
theorem consistent_complete {p : Phi} (h : s.graph.Consistent)
    (hp : (s.graph.definition v).phi? = some p) (maxDepth : Int) :
    (after (complete maxDepth v p s)).graph.Consistent := by
  have hpreds : ∀ b ∈ (s.graph.block (s.graph.definition v).block).preds,
      b < s.graph.blocks.size := fun b hb => h.lt_size b (h.preds_live hb).1
  have hfed := Tends.forM_feed ⟨h, ⟨p, hp⟩, rfl⟩ hpreds p.slot
  rw [complete, get_bind]
  dsimp only
  split
  · exact h
  split
  · exact h
  refine (after_bind (I := fun r : State => Tends v s.graph.blocks.size r.graph) hfed
    fun _ s' _ hs' => ?_).consistent
  exact hs'.modifyPhi fun _ => rfl

/-- So does completing the phis of the queue, wherever it stops. -/
theorem consistent_drain (maxDepth : Int) (fuel : Nat) (h : s.graph.Consistent) :
    (after (drain maxDepth fuel s)).graph.Consistent := by
  induction fuel generalizing s with
  | zero => exact h
  | succ fuel ih =>
    rw [drain, get_bind]
    cases hnext : s.queue.next? with
    | none => exact h
    | some next =>
      obtain ⟨v, queue⟩ := next
      dsimp only
      cases hp : (s.graph.definition v).phi? with
      | none => exact h
      | some p =>
        refine after_bind (I := fun s : State => s.graph.Consistent) h fun _ s₁ hset _ => ?_
        cases hset
        dsimp only
        split
        · exact ih h
        · exact after_bind (I := fun s : State => s.graph.Consistent)
            (consistent_complete (s := { s with queue }) h hp maxDepth) fun _ s' _ hs' => ih hs'

end PhiCompletion

namespace Graph

variable {g g' : Graph} {b : BlockId}

/-- Removing the dead blocks leaves a graph consistent. -/
theorem Consistent.removeDead (h : g.Consistent) :
    g.removeDead = .ok g.stripDead.2 ∧ g.stripDead.2.Consistent :=
  ⟨removeDead_eq h.ordered.nodup, h.stripDead⟩

/-! ## What holds of every graph -/

/-- The graph after some steps of completing its phis, as far as they go. -/
def afterSteps (g : Graph) (maxDepth : Int) (steps : Nat) : Graph :=
  (after (PhiCompletion.drain maxDepth steps
    ⟨g, { front := PhiCompletion.allPhis g }, #[]⟩)).graph

/-- Completing the phis of a graph takes some steps. -/
theorem afterCompletion_eq (g : Graph) (maxDepth : Int) :
    g.afterCompletion maxDepth = g.afterSteps maxDepth (PhiCompletion.fuelFor g maxDepth) := by
  rw [afterSteps, ← completePhis]
  cases hres : g.completePhis maxDepth with
  | ok u r => exact afterCompletion_of_ok hres
  | error e r => exact afterCompletion_of_error hres

/-- The graphs that come out of the empty one by operations on blocks that are in the graph, by
completing phis and by removing dead blocks.  An operation that is refused changes nothing, and
completing phis leaves what was done when it stops. -/
inductive Reached : Graph → Prop
  | empty : Reached empty
  | perform {g : Graph} (h : Reached g) {op : Operation} (hop : op.OnLive g) :
      Reached (g.perform op)
  | completePhis {g : Graph} (h : Reached g) (maxDepth : Int) (steps : Nat) :
      Reached (g.afterSteps maxDepth steps)
  | removeDead {g g' : Graph} (h : Reached g) (hok : g.removeDead = .ok g') : Reached g'

/-- All graphs that can be reached are consistent. -/
theorem Reached.consistent (h : g.Reached) : g.Consistent := by
  induction h with
  | empty => exact consistent_empty
  | perform _ hop ih => exact ih.perform hop
  | completePhis _ maxDepth steps ih => exact PhiCompletion.consistent_drain maxDepth steps ih
  | removeDead _ hok ih =>
    obtain ⟨heq, hstrip⟩ := ih.removeDead
    cases heq.symm.trans hok
    exact hstrip

/-- Completing phis changes a graph by one operation at a time. -/
theorem exists_leads_afterSteps (g : Graph) (maxDepth : Int) (steps : Nat) :
    ∃ l, Leads OneChange g l (g.afterSteps maxDepth steps) := by
  have hdrain := PhiCompletion.gapless_drainPassing maxDepth steps
    ⟨g, { front := PhiCompletion.allPhis g }, #[]⟩
  rw [Passage.Gapless, PhiCompletion.result_drainPassing] at hdrain
  exact ⟨_, hdrain.map PhiCompletion.State.graph fun _ _ h => h⟩

/-- Sheets can be kept beside a graph, whatever is done to it. -/
theorem Reached.exists_recorded (h : g.Reached) : ∃ S, g.Recorded S := by
  induction h with
  | empty => exact ⟨_, .empty⟩
  | @perform g _ op _ ih => exact Recorded.exists_of_oneChange (.perform g op) ih
  | @completePhis g _ maxDepth steps ih =>
    obtain ⟨l, hl⟩ := g.exists_leads_afterSteps maxDepth steps
    exact Recorded.exists_of_leads hl ih
  | removeDead _ hok ih => exact Recorded.exists_of_leads (leads_discards hok) ih

/-- A whole completion is some steps of it. -/
theorem Reached.afterCompletion (h : g.Reached) (maxDepth : Int) :
    (g.afterCompletion maxDepth).Reached := by
  rw [afterCompletion_eq]
  exact .completePhis h maxDepth _

/-- Whether a block of a graph fits into it. -/
structure Fits (g : Graph) (b : BlockId) : Prop where
  succs_nodup : (g.block b).succs.Nodup
  preds_nodup : (g.block b).preds.Nodup
  succs_live : ∀ s ∈ (g.block b).succs, s ∈ g.live
  preds_live : ∀ a ∈ (g.block b).preds, a ∈ g.live
  edge_iff : ∀ s ∈ g.live, s ∈ (g.block b).succs ↔ b ∈ (g.block s).preds
  targets_mem : ∀ t, (g.block b).terminator = some t → ∀ n ∈ t.targets, n ∈ (g.block b).succs
  /-- The code begins with the phis of the entry slots, in order. -/
  take_code : (g.block b).code.take (g.block b).phis.size = (g.block b).phis.toList
  slot_eq : ∀ (k : Nat) v, (g.block b).phis[k]? = some v →
    ∃ p, (g.definition v).phi? = some p ∧ p.slot = k
  phis_disjoint : ∀ v ∈ (g.block b).phis, v ∉ (g.block b).code.drop (g.block b).phis.size
  used_le : (g.block b).used ≤ (g.block b).phis.size
  place_eq : ∀ v ∈ (g.block b).code, (g.definition v).block = b

/-- All blocks of a consistent graph fit into it, those that were removed as well. -/
theorem Consistent.fits_block (h : g.Consistent) (b : BlockId) : g.Fits b where
  succs_nodup := h.succs_nodup b
  preds_nodup := h.preds_nodup b
  succs_live s hs := (h.succs_live b s hs).2
  preds_live a ha := (h.preds_live ha).1
  edge_iff s _ := h.edge_iff b s
  targets_mem := h.targets_mem b
  take_code := by simp [Block.code]
  slot_eq k v hv := by
    obtain ⟨-, -, p, hp, hslot⟩ := h.slotted b k v hv
    exact ⟨p, hp, hslot⟩
  phis_disjoint v hv hmem := by
    have hnodup := h.code_nodup b
    rw [← List.take_append_drop (g.block b).phis.size (g.block b).code] at hnodup
    refine (List.nodup_append.1 hnodup).2.2 v ?_ v hmem rfl
    simpa [Block.code] using hv
  used_le := h.used_le b
  place_eq v hv := ((h.mem_code_iff b v).1 hv).2

/-- Whatever was done to the blocks of a graph, and whether it succeeded or not, its blocks fit into
it, and the values of all blocks that were ever made are numbered without gaps.  Where the code of
each block was kept in one array all the while, that array holds the code of the block, and begins
with the phis of its entry slots. -/
theorem Reached.fits (h : g.Reached) : (∀ b ∈ g.live, g.Fits b) ∧
    ((List.range g.blocks.size).flatMap fun b => (g.block b).code).Perm
      (List.range g.valueCount) ∧
    (∃ S, g.Recorded S) ∧ ∀ S, g.Recorded S → S = g.sheets ∧
      ∀ b ∈ g.live, (S.sheet b).code.take (S.sheet b).slots.size = (S.sheet b).slots := by
  refine ⟨fun b _ => h.consistent.fits_block b, h.consistent.toHoused.perm, h.exists_recorded,
    fun S hS => ⟨hS.eq_sheets, fun b _ => ?_⟩⟩
  rw [hS.eq_sheets, sheet_sheets]
  refine Array.toList_inj.1 ?_
  simpa [Block.sheet] using (h.consistent.fits_block b).take_code

/-- A block that branches twice to a second one, which pops more than it pushes, beside a third one
that is left out. -/
def forked : Graph :=
  ([.ensure 0, .ensure 6, .ensure 3, .append 1 2 (some (.const .none)), .call 1 (.pop 2),
    .call 1 (.push (some 0)), .terminate 0 1 (.branch none 1 1), .terminate 0 1 .retVoid,
    .remove 1] : List Operation).foldl perform empty

theorem reached_forked : forked.Reached := by
  simp only [forked, List.foldl_cons, List.foldl_nil]
  repeat refine .perform ?_ (by decide)
  exact .empty

/-- The second terminator and the removal are refused, and the phis cannot be completed.  The slots
that were made for it fit in, also after the third block is removed.  In the array of the second
block a constant has made room for a phi. -/
theorem fits_forked : ∃ g r S, forked.remove 1 = .error (.removeConnected 6 [0] []) ∧
    forked.completePhis 4 = .error (.error (.underflow 0 0 1)) r ∧
    (forked.afterCompletion 4).removeDead = .ok g ∧ g.live = [0, 1] ∧ g.Fits 0 ∧ g.Fits 1 ∧
    ((List.range 3).flatMap fun b => (g.block b).code).Perm [0, 1, 2] ∧
    g.Recorded S ∧ (S.sheet 1).code = #[1, 0] ∧
    (S.sheet 1).code.take (S.sheet 1).slots.size = (S.sheet 1).slots := by
  have hreached := reached_forked.afterCompletion 4
  obtain ⟨hfits, hperm, ⟨S, hS⟩, hsheets⟩ :=
    (Reached.removeDead hreached hreached.consistent.removeDead.1).fits
  obtain ⟨rfl, htake⟩ := hsheets S hS
  exact ⟨_, _, _, by decide, rfl, hreached.consistent.removeDead.1, by decide, hfits 0 (by decide),
    hfits 1 (by decide), hperm, hS, by rw [sheet_sheets]; decide, htake 1 (by decide)⟩

end Graph

end StackLift
