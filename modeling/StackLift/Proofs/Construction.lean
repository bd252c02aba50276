/-
# Graphs made by operations

A graph is made from the empty one by operations on its blocks and values, one after another.  A
block that was removed can still be worked on, and edges can lead to it.

* `Graph.Built` : the graphs that operations make;
* `Graph.Regular` : what holds of every one of them;
* `Graph.Built.completable` : the phis of such a graph can be completed.
-/
import StackLift.Proofs.Dominators
import StackLift.Proofs.PhiCompletion

namespace StackLift.Graph

variable {g g' : Graph} {a b : BlockId} {v : ValueId}

/-! ## Operations -/

/-- The graphs that operations make from the empty one.  Blocks and values are there before they are
worked on, and operations that fail make nothing. -/
inductive Built : Graph → Prop
  | empty : Built empty
  | ensure {g : Graph} (h : Built g) (o : Int) : Built (g.ensure o).2
  | remove {g g' : Graph} {b : BlockId} (h : Built g) (hok : g.remove b = .ok g') : Built g'
  | define {g : Graph} {b : BlockId} (h : Built g) (hb : b < g.blocks.size) (line : Int)
      (e : Option Expr) : Built (g.define b line e).2
  | push {g : Graph} {b : BlockId} (h : Built g) (hb : b < g.blocks.size) (x : Operand) :
      Built (g.push b x)
  | pop {g : Graph} {b : BlockId} (h : Built g) (hb : b < g.blocks.size) (line : Int) :
      Built (g.pop b line).2
  | peek {g : Graph} {b : BlockId} (h : Built g) (hb : b < g.blocks.size) (line : Int) :
      Built (g.peek b line).2
  | entrySlot {g : Graph} {b : BlockId} (h : Built g) (hb : b < g.blocks.size) (line : Int)
      (depth : Nat) : Built (g.entrySlot b line depth).2
  | exitSlot {g : Graph} {b : BlockId} (h : Built g) (hb : b < g.blocks.size) (line : Int)
      (depth : Nat) : Built (g.exitSlot b line depth).2
  | connect {g : Graph} {b n : BlockId} (h : Built g) (hb : b < g.blocks.size)
      (hn : n < g.blocks.size) : Built (g.connect b n)
  | terminate {g g' : Graph} {b : BlockId} {line : Int} {t : Terminator} (h : Built g)
      (hb : b < g.blocks.size) (ht : ∀ n ∈ t.targets, n < g.blocks.size)
      (hok : g.terminate b line t = .ok g') : Built g'
  | addIncoming {g g' : Graph} {v : ValueId} {p : Phi} {b : BlockId} {x : Operand} (h : Built g)
      (hp : (g.definition v).phi? = some p) (hok : g.addIncoming v b x = .ok g') : Built g'
  | markComplete {g : Graph} {v : ValueId} {p : Phi} (h : Built g)
      (hp : (g.definition v).phi? = some p) : Built (g.markComplete v)

/-- Asking for a slot with which a block is left is work in the block. -/
theorem worksIn_exitSlot (g : Graph) (b : BlockId) (line : Int) (depth : Nat) :
    WorksIn b g (g.exitSlot b line depth).2 := by
  rcases Nat.lt_or_ge depth (g.block b).stack.length with hlt | hge
  · rw [exitSlot_of_lt hlt]
    exact .refl b g
  · rw [exitSlot_of_ge hge]
    exact g.worksIn_reach b line _

/-! ## Phis in their slots -/

namespace Slotted

/-- A new block has no phis. -/
theorem ensure (h : g.Slotted) (o : Int) : (g.ensure o).2.Slotted := by
  unfold Graph.ensure
  split
  · exact h
  · exact h.of_same rfl (g.phis_addBlock o)

/-- Where the stack is too shallow, an entry slot is asked for. -/
theorem exitSlot (h : g.Slotted) (b : BlockId) (line : Int) (depth : Nat) :
    (g.exitSlot b line depth).2.Slotted := by
  rcases Nat.lt_or_ge depth (g.block b).stack.length with hlt | hge
  · rw [exitSlot_of_lt hlt]
    exact h
  · rw [exitSlot_of_ge hge]
    exact h.addSlots b line _

/-- Where the stack is empty, an entry slot is asked for. -/
theorem peek (h : g.Slotted) (b : BlockId) (line : Int) : (g.peek b line).2.Slotted := by
  unfold Graph.peek
  split
  · exact h
  · exact h.addSlots b line _

/-- A change to a block that keeps its phis keeps all phis in their slots. -/
theorem modifyBlock {f : Block → Block} (h : g.Slotted)
    (hf : (f (g.block b)).phis = (g.block b).phis) : (g.modifyBlock b f).Slotted :=
  h.of_same rfl (phis_modifyBlock hf)

/-- Popping drops what a look at the stack has found. -/
theorem pop (h : g.Slotted) (b : BlockId) (line : Int) : (g.pop b line).2.Slotted := by
  rw [pop_eq]
  exact (h.peek b line).modifyBlock (phis_dropTop _)

/-- A value at the end of the code is not a phi of an entry slot. -/
theorem define (h : g.Slotted) (b : BlockId) (line : Int) (e : Option Expr) :
    (g.define b line e).2.Slotted := by
  refine h.worksIn (g.worksIn_define b line e) ?_
  intro k v hv
  rw [Graph.define, block_modifyBlock] at hv
  split at hv <;> exact .inl hv

/-- Edges leave phis alone. -/
theorem foldl_connect (h : g.Slotted) (b : BlockId) (ts : List BlockId) :
    (ts.foldl (fun g n => g.connect b n) g).Slotted := by
  induction ts generalizing g with
  | nil => exact h
  | cons n ts ih => exact ih ((h.modifyBlock rfl).modifyBlock rfl)

/-- Terminators leave phis alone. -/
theorem terminate {line : Int} {t : Terminator} (h : g.Slotted)
    (hok : g.terminate b line t = .ok g') : g'.Slotted := by
  unfold Graph.terminate at hok
  split at hok
  · cases hok
  · cases hok
    exact (h.modifyBlock rfl).foldl_connect b _

end Slotted

/-! ## Regular graphs -/

/-- What holds of a graph whatever operations have made it. -/
structure Regular (g : Graph) : Prop where
  ordered : g.Ordered
  lt_size : ∀ b ∈ g.live, b < g.blocks.size
  edge_iff : ∀ a b, b ∈ (g.block a).succs ↔ a ∈ (g.block b).preds
  preds_nodup : ∀ b, (g.block b).preds.Nodup
  slotted : g.Slotted

/-- The blocks that can be removed are those of the graph that have no edges. -/
theorem remove_eq_ok_iff :
    g.remove b = .ok g' ↔ (g.block b).isDead = true ∧ b ∈ g.live ∧ g' = g.discard b := by
  constructor
  · intro hok
    unfold Graph.remove at hok
    dsimp only at hok
    split at hok
    · rename_i hdead
      split at hok
      · rename_i hb
        cases hok
        exact ⟨hdead, hb, rfl⟩
      · cases hok
    · cases hok
  · rintro ⟨hdead, hb, rfl⟩
    rw [Graph.remove, if_pos hdead, if_pos hb]

/-- Removing a block takes it out of the graph and changes nothing else. -/
theorem remove_eq_ok (hok : g.remove b = .ok g') : g' = g.discard b :=
  (remove_eq_ok_iff.1 hok).2.2

/-- Regular graphs are well-formed ones of which less is asked. -/
theorem WellFormed.regular (h : g.WellFormed) : g.Regular :=
  ⟨h.ordered, fun b => (h.mem_live_iff b).1, h.edge_iff, h.preds_nodup, h.typed.slotted⟩

namespace Regular

/-- What changes neither offsets nor edges leaves a graph regular if phis stay in their slots. -/
theorem of_same (h : g.Regular) (hlive : g'.live.Sublist g.live)
    (hsize : g'.blocks.size = g.blocks.size) (hoffset : ∀ a, g'.offset a = g.offset a)
    (hsuccs : ∀ a, (g'.block a).succs = (g.block a).succs)
    (hpreds : ∀ a, (g'.block a).preds = (g.block a).preds) (hslotted : g'.Slotted) :
    g'.Regular where
  ordered := (h.ordered.sublist hlive).imp fun hab => by rwa [hoffset, hoffset]
  lt_size a ha := hsize ▸ h.lt_size a (hlive.subset ha)
  edge_iff a c := by rw [hsuccs, hpreds, h.edge_iff]
  preds_nodup a := by
    rw [hpreds]
    exact h.preds_nodup a
  slotted := hslotted

/-- Work in a block leaves a graph regular if phis stay in their slots. -/
theorem worksIn (h : g.Regular) (hw : WorksIn b g g') (hslotted : g'.Slotted) : g'.Regular := by
  refine h.of_same ?_ hw.size_eq hw.offset_eq hw.succs_eq hw.preds_eq hslotted
  rw [hw.live_eq]

/-- A block may be made where there is none. -/
theorem addBlock (h : g.Regular) {o : Int} (ho : g.find? o = none) : (g.addBlock o).Regular where
  ordered := h.ordered.addBlock h.lt_size ho
  lt_size a ha := by
    rw [size_addBlock, Nat.lt_succ_iff_lt_or_eq]
    exact ((mem_live_addBlock g o a).1 ha).symm.imp_left (h.lt_size a)
  edge_iff a c := by rw [(g.edges_addBlock o a).1, (g.edges_addBlock o c).2, h.edge_iff]
  preds_nodup a := by
    rw [(g.edges_addBlock o a).2]
    exact h.preds_nodup a
  slotted := h.slotted.of_same rfl (g.phis_addBlock o)

/-- A block that is there is not made again. -/
theorem ensure (h : g.Regular) (o : Int) : (g.ensure o).2.Regular := by
  unfold Graph.ensure
  split
  · exact h
  · rename_i hnone
    exact h.addBlock hnone

/-- Where a block is missing, the other ones are still in order. -/
theorem remove (h : g.Regular) (hok : g.remove b = .ok g') : g'.Regular := by
  rw [remove_eq_ok hok]
  exact h.of_same List.erase_sublist rfl (fun _ => rfl) (fun _ => rfl) (fun _ => rfl) h.slotted

/-- Asking for an entry slot is work in a block that leaves phis in their slots. -/
theorem entrySlot (h : g.Regular) (b : BlockId) (line : Int) (depth : Nat) :
    (g.entrySlot b line depth).2.Regular :=
  h.worksIn (g.worksIn_reach b line depth) (h.slotted.addSlots b line _)

theorem exitSlot (h : g.Regular) (b : BlockId) (line : Int) (depth : Nat) :
    (g.exitSlot b line depth).2.Regular :=
  h.worksIn (g.worksIn_exitSlot b line depth) (h.slotted.exitSlot b line depth)

theorem peek (h : g.Regular) (b : BlockId) (line : Int) : (g.peek b line).2.Regular :=
  h.worksIn (g.worksIn_peek b line) (h.slotted.peek b line)

theorem pop (h : g.Regular) (b : BlockId) (line : Int) : (g.pop b line).2.Regular :=
  h.worksIn (g.worksIn_pop b line) (h.slotted.pop b line)

/-- What is pushed is of no concern. -/
theorem push (h : g.Regular) (b : BlockId) (x : Operand) : (g.push b x).Regular :=
  h.worksIn (g.worksIn_push b x) (h.slotted.modifyBlock rfl)

/-- A value at the end of the code is of no concern. -/
theorem define (h : g.Regular) (b : BlockId) (line : Int) (e : Option Expr) :
    (g.define b line e).2.Regular :=
  h.worksIn (g.worksIn_define b line e) (h.slotted.define b line e)

/-- An edge is added to two lists. -/
theorem connect {n : BlockId} (h : g.Regular) (hb : b < g.blocks.size) (hn : n < g.blocks.size) :
    (g.connect b n).Regular := by
  have hblock := block_connect hb hn
  have hoffset : ∀ a, (g.connect b n).offset a = g.offset a := fun a => by
    rw [offset, hblock, offset]
  refine ⟨?_, ?_, ?_, ?_, h.slotted.of_same rfl fun a => by rw [hblock]⟩
  · exact h.ordered.imp fun hac => by rwa [hoffset, hoffset]
  · intro a ha
    rw [size_connect]
    exact h.lt_size a ha
  · intro a c
    rw [hblock, hblock]
    by_cases hab : a = b <;> by_cases hcn : c = n <;> simp [hab, hcn, mem_addNew, h.edge_iff]
  · intro a
    rw [hblock]
    dsimp only
    split
    · exact nodup_addNew (h.preds_nodup a)
    · exact h.preds_nodup a

/-- Several edges from a block may be made one after the other. -/
theorem foldl_connect {ts : List BlockId} (h : g.Regular) (hb : b < g.blocks.size)
    (hts : ∀ n ∈ ts, n < g.blocks.size) : (ts.foldl (fun g n => g.connect b n) g).Regular := by
  induction ts generalizing g with
  | nil => exact h
  | cons n ts ih =>
    refine ih (h.connect hb (hts n List.mem_cons_self)) (by rwa [size_connect]) fun m hm => ?_
    rw [size_connect]
    exact hts m (List.mem_cons_of_mem _ hm)

/-- A block may be left for blocks that were made. -/
theorem terminate {line : Int} {t : Terminator} (h : g.Regular) (hb : b < g.blocks.size)
    (ht : ∀ n ∈ t.targets, n < g.blocks.size) (hok : g.terminate b line t = .ok g') :
    g'.Regular := by
  unfold Graph.terminate at hok
  split at hok
  · cases hok
  · cases hok
    refine foldl_connect ?_ (by rwa [size_modifyBlock]) (by simpa using ht)
    -- the terminator alone changes nothing else
    have hblock : ∀ a, ∃ terminator terminatorLine, (g.modifyBlock b fun x =>
        { x with terminator := some t, terminatorLine := line }).block a =
          { g.block a with terminator, terminatorLine } := by
      intro a
      rw [block_modifyBlock]
      split <;> exact ⟨_, _, rfl⟩
    refine h.of_same (.refl _) (size_modifyBlock ..) ?_ ?_ ?_ (h.slotted.modifyBlock rfl)
    · intro a
      obtain ⟨_, _, ha⟩ := hblock a
      rw [offset, ha, offset]
    · intro a
      obtain ⟨_, _, ha⟩ := hblock a
      rw [ha]
    · intro a
      obtain ⟨_, _, ha⟩ := hblock a
      rw [ha]

/-- A phi can be changed, but for its slot. -/
theorem modifyPhi {p : Phi} {f : Phi → Phi} (h : g.Regular) (hp : (g.definition v).phi? = some p)
    (hslot : (f p).slot = p.slot) : (g.modifyPhi v f).Regular :=
  h.of_same (.refl _) rfl (fun _ => rfl) (fun _ => rfl) (fun _ => rfl)
    (h.slotted.modifyPhi hp hslot)

/-- What flows into a phi leaves it in its slot. -/
theorem addIncoming {p : Phi} {x : Operand} (h : g.Regular)
    (hp : (g.definition v).phi? = some p) (hok : g.addIncoming v b x = .ok g') : g'.Regular := by
  unfold Graph.addIncoming at hok
  split at hok
  · cases hok
  · cases hok
    exact h.modifyPhi hp rfl

end Regular

/-- Operations make regular graphs only. -/
theorem Built.regular (h : g.Built) : g.Regular := by
  induction h with
  | empty => exact wellFormed_empty.regular
  | ensure _ o ih => exact ih.ensure o
  | remove _ hok ih => exact ih.remove hok
  | define _ _ line e ih => exact ih.define _ line e
  | push _ _ x ih => exact ih.push _ x
  | pop _ _ line ih => exact ih.pop _ line
  | peek _ _ line ih => exact ih.peek _ line
  | entrySlot _ _ line depth ih => exact ih.entrySlot _ line depth
  | exitSlot _ _ line depth ih => exact ih.exitSlot _ line depth
  | connect _ hb hn ih => exact ih.connect hb hn
  | terminate _ hb ht hok ih => exact ih.terminate hb ht hok
  | addIncoming _ hp hok ih => exact ih.addIncoming hp hok
  | markComplete _ hp ih => exact ih.modifyPhi hp rfl

/-! ## Phis that can be completed -/

/-- Whether nothing has flown into the entry slots of the blocks of a graph, none of which is
complete. -/
def SlotsOpen (g : Graph) : Prop :=
  ∀ b ∈ g.live, ∀ v ∈ (g.block b).phis, ∀ p, (g.definition v).phi? = some p →
    p.incomings = [] ∧ p.complete = false

/-- The phis of a graph that operations made can be completed if its blocks have predecessors in it
and nothing has flown yet. -/
theorem Built.completable (h : g.Built) (hpreds : g.PredsInside) (hopen : g.SlotsOpen) :
    g.Completable where
  slotted := h.regular.slotted
  lt_size := h.regular.lt_size
  preds_live := hpreds
  preds_nodup b _ := h.regular.preds_nodup b
  settled b hb k v p hv hp := by
    obtain ⟨hincomings, hcomplete⟩ := hopen b hb v (Array.mem_of_getElem? hv) p hp
    rw [Flows, hcomplete]
    exact hincomings

end StackLift.Graph
