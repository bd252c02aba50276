/-
# Well-formed graphs

The blocks of a graph stand in the order of their offsets, and their edges lead both ways.  Asking
for a block and leaving one keep it so.

* `Graph.WellFormed` : what holds of a graph that is added to;
* `Graph.Ensured` : what comes of asking for the block at an offset;
* `Graph.Terminated` : what comes of leaving a block.
-/
import StackLift.Graph.Edges
import StackLift.Proofs.Graph

namespace StackLift.Graph

variable {g g' g'' : Graph} {a b : BlockId}

/-! ## Blocks by offset -/

/-- Whether the blocks of a graph stand in ascending order of offset. -/
def Ordered (g : Graph) : Prop := g.live.Pairwise fun a b => g.offset a < g.offset b

/-- In ascending order of offset, no block comes twice. -/
theorem Ordered.nodup (h : g.Ordered) : g.live.Nodup := by
  refine List.Pairwise.imp ?_ h
  intro a b hab heq
  rw [heq] at hab
  exact Int.lt_irrefl _ hab

/-- Two blocks of a graph do not stand at one offset. -/
theorem Ordered.eq_of_offset_eq (h : g.Ordered) (ha : a ∈ g.live) (hb : b ∈ g.live)
    (hab : g.offset a = g.offset b) : a = b := by
  obtain ⟨i, hi, rfl⟩ := List.mem_iff_getElem.1 ha
  obtain ⟨j, hj, rfl⟩ := List.mem_iff_getElem.1 hb
  have hpair := List.pairwise_iff_getElem.1 h
  rcases Nat.lt_trichotomy i j with hij | rfl | hij
  · exact absurd hab (Int.ne_of_lt (hpair i j hi hj hij))
  · rfl
  · exact absurd hab.symm (Int.ne_of_lt (hpair j i hj hi hij))

/-- The block found at an offset stands there. -/
theorem offset_of_find?_eq_some {o : Int} (h : g.find? o = some b) :
    b ∈ g.live ∧ g.offset b = o := by
  refine ⟨List.mem_of_find?_eq_some h, ?_⟩
  simpa using List.find?_some h

/-- There is at most one block at an offset, so it is the one that is found. -/
theorem Ordered.find?_eq_some_iff (h : g.Ordered) (o : Int) :
    g.find? o = some b ↔ b ∈ g.live ∧ g.offset b = o := by
  refine ⟨offset_of_find?_eq_some, ?_⟩
  rintro ⟨hb, rfl⟩
  cases hfind : g.find? (g.offset b) with
  | none => exact absurd (List.find?_eq_none.1 hfind b hb) (by simp)
  | some a =>
    obtain ⟨ha, hab⟩ := offset_of_find?_eq_some hfind
    rw [h.eq_of_offset_eq ha hb hab]

/-- Nothing is found where no block has the offset. -/
theorem find?_eq_none_iff (g : Graph) (o : Int) :
    g.find? o = none ↔ ∀ b ∈ g.live, g.offset b ≠ o := by
  rw [find?, List.find?_eq_none]
  simp

/-- There is a block at an offset if one of the graph has it. -/
theorem has_iff (g : Graph) (o : Int) : g.has o = true ↔ ∃ b ∈ g.live, g.offset b = o := by
  rw [has, Option.isSome_iff_ne_none, ne_eq, find?_eq_none_iff]
  simp

/-- Putting a block in its place loses no other one. -/
theorem mem_insertByOffset (f : BlockId → Int) (b a : BlockId) (l : List BlockId) :
    a ∈ insertByOffset f b l ↔ a = b ∨ a ∈ l := by
  induction l with
  | nil => simp [insertByOffset]
  | cons c cs ih =>
    rw [insertByOffset]
    split
    · exact List.mem_cons
    · rw [List.mem_cons, ih, List.mem_cons]
      exact or_left_comm

/-- A block with an offset of its own is put where the order stays. -/
theorem pairwise_insertByOffset {f : BlockId → Int} {b : BlockId} {l : List BlockId}
    (h : l.Pairwise fun a c => f a < f c) (hne : ∀ a ∈ l, f a ≠ f b) :
    (insertByOffset f b l).Pairwise fun a c => f a < f c := by
  induction l with
  | nil => exact List.pairwise_singleton _ _
  | cons c cs ih =>
    obtain ⟨hc, hcs⟩ := List.pairwise_cons.1 h
    rw [insertByOffset]
    split
    · rename_i hlt
      refine List.pairwise_cons.2 ⟨?_, h⟩
      intro a ha
      rcases List.mem_cons.1 ha with rfl | ha
      · exact hlt
      · exact Int.lt_trans hlt (hc a ha)
    · -- the offset is not below the first one, and not the same
      rename_i hlt
      refine List.pairwise_cons.2 ⟨?_, ih hcs fun a ha => hne a (List.mem_cons_of_mem _ ha)⟩
      intro a ha
      rcases (mem_insertByOffset f b a cs).1 ha with rfl | ha
      · have := hne c List.mem_cons_self
        omega
      · exact hc a ha

/-- A new block is empty, and the other ones stay as they are. -/
theorem block_addBlock (g : Graph) (o : Int) (a : BlockId) :
    (g.addBlock o).block a = if a = g.blocks.size then { offset := o } else g.block a := by
  simp only [block, addBlock, Array.getD_eq_getD_getElem?, Array.getElem?_push]
  split <;> rfl

/-- A new block is in the graph. -/
theorem mem_live_addBlock (g : Graph) (o : Int) (a : BlockId) :
    a ∈ (g.addBlock o).live ↔ a = g.blocks.size ∨ a ∈ g.live := mem_insertByOffset ..

@[simp]
theorem size_addBlock (g : Graph) (o : Int) : (g.addBlock o).blocks.size = g.blocks.size + 1 := by
  simp [addBlock]

/-! ## Well-formed graphs -/

/-- What holds of a graph to which blocks, values and edges are added. -/
structure WellFormed (g : Graph) : Prop where
  ordered : g.Ordered
  mem_live_iff : ∀ b, b ∈ g.live ↔ b < g.blocks.size
  edge_iff : ∀ a b, b ∈ (g.block a).succs ↔ a ∈ (g.block b).preds
  succs_live : ∀ a, ∀ b ∈ (g.block a).succs, b ∈ g.live
  preds_nodup : ∀ b, (g.block b).preds.Nodup
  typed : g.Typed
  unfed : g.Unfed

/-- Nothing can be wrong with a graph without blocks. -/
theorem wellFormed_empty : WellFormed empty := by
  have hblock : ∀ b, empty.block b = { offset := 0 } := fun _ => rfl
  refine ⟨List.Pairwise.nil, by simp [empty], ?_, ?_, ?_, ⟨?_, ?_, ?_, ?_, ?_⟩, ?_⟩
  · intro a b
    rw [hblock, hblock]
    exact iff_of_false List.not_mem_nil List.not_mem_nil
  · intro a b hb
    rw [hblock] at hb
    cases hb
  · intro b
    rw [hblock]
    exact List.nodup_nil
  · intro b k v hv
    simp [hblock] at hv
  · intro b k v hv
    simp [hblock] at hv
  · intro b
    simp [hblock]
  · intro b
    simp [hblock]
  · exact fun v hv => absurd hv (Nat.not_lt_zero v)
  · intro v p hp
    cases hp

/-- A block of the graph keeps its offset. -/
theorem WellFormed.offset_eq (h : g.WellFormed) (hext : g.Extends g') (ha : a ∈ g.live) :
    g'.offset a = g.offset a := hext.offset_eq a ((h.mem_live_iff a).1 ha)

/-- Work in a block leaves a graph well-formed. -/
theorem WellFormed.advances (h : g.WellFormed) (hw : Advances b g g') (hb : b < g.blocks.size) :
    g'.WellFormed where
  ordered := by
    rw [Ordered, hw.live_eq]
    exact h.ordered.imp fun hab => by rwa [hw.offset_eq, hw.offset_eq]
  mem_live_iff a := by rw [hw.live_eq, hw.size_eq, h.mem_live_iff]
  edge_iff a c := by rw [hw.succs_eq, hw.preds_eq, h.edge_iff]
  succs_live a c hc := by
    rw [hw.succs_eq] at hc
    exact hw.live_eq ▸ h.succs_live a c hc
  preds_nodup a := by
    rw [hw.preds_eq]
    exact h.preds_nodup a
  typed := hw.typed h.typed hb
  unfed := hw.unfed h.unfed

/-- A new block has a number of its own. -/
theorem WellFormed.block_addBlock_of_mem (h : g.WellFormed) (o : Int) (ha : a ∈ g.live) :
    (g.addBlock o).block a = g.block a := by
  rw [block_addBlock, if_neg (Nat.ne_of_lt ((h.mem_live_iff a).1 ha))]

/-- A block of a graph with a new block is the new one, or it was there. -/
theorem block_addBlock_cases (g : Graph) (o : Int) (a : BlockId) :
    (g.addBlock o).block a = { offset := o } ∧ g.block a = default ∨
      (g.addBlock o).block a = g.block a := by
  rw [block_addBlock]
  split
  · rename_i heq
    exact .inl ⟨rfl, block_of_size_le (Nat.le_of_eq heq.symm)⟩
  · exact .inr rfl

/-- A new block has no edges. -/
theorem edges_addBlock (g : Graph) (o : Int) (a : BlockId) :
    ((g.addBlock o).block a).succs = (g.block a).succs ∧
      ((g.addBlock o).block a).preds = (g.block a).preds := by
  rcases g.block_addBlock_cases o a with ⟨hblock, hdefault⟩ | hblock
  · rw [hblock, hdefault]
    exact ⟨rfl, rfl⟩
  · rw [hblock]
    exact ⟨rfl, rfl⟩

/-- A new block has no phis. -/
theorem phis_addBlock (g : Graph) (o : Int) (a : BlockId) :
    ((g.addBlock o).block a).phis = (g.block a).phis := by
  rcases g.block_addBlock_cases o a with ⟨hblock, hdefault⟩ | hblock
  · rw [hblock, hdefault]
    rfl
  · rw [hblock]

/-- A new block has no phis and no code. -/
theorem Typed.addBlock (h : g.Typed) (o : Int) : (g.addBlock o).Typed := by
  refine h.of_same rfl (g.phis_addBlock o) ?_ ?_
  · intro a
    rcases g.block_addBlock_cases o a with ⟨hblock, hdefault⟩ | hblock
    · rw [hblock, hdefault]
      rfl
    · rw [hblock]
  · intro a
    rcases g.block_addBlock_cases o a with ⟨hblock, hdefault⟩ | hblock
    · rw [hblock]
      exact Nat.zero_le _
    · rw [hblock]
      exact h.used_le a

/-- A new block is put in its place. -/
theorem Ordered.addBlock (h : g.Ordered) (hlt : ∀ a ∈ g.live, a < g.blocks.size) {o : Int}
    (ho : g.find? o = none) : (g.addBlock o).Ordered := by
  have hoffset : ∀ a ∈ g.live, (g.addBlock o).offset a = g.offset a := by
    intro a ha
    rw [offset, block_addBlock, if_neg (Nat.ne_of_lt (hlt a ha)), offset]
  have hlast : (g.addBlock o).offset g.blocks.size = o := by
    rw [offset, block_addBlock, if_pos rfl]
  refine pairwise_insertByOffset (h.imp_of_mem fun ha hb hab => ?_) fun a ha => ?_
  · exact (hoffset _ ha).symm ▸ (hoffset _ hb).symm ▸ hab
  · exact (hoffset a ha).symm ▸ hlast.symm ▸ (find?_eq_none_iff g o).1 ho a ha

/-- A block may be made where there is none. -/
theorem WellFormed.addBlock (h : g.WellFormed) {o : Int} (ho : g.find? o = none) :
    (g.addBlock o).WellFormed := by
  refine ⟨h.ordered.addBlock (fun a => (h.mem_live_iff a).1) ho, ?_, ?_, ?_, ?_,
    h.typed.addBlock o, h.unfed⟩
  · intro a
    rw [mem_live_addBlock, size_addBlock, h.mem_live_iff, Nat.lt_succ_iff_lt_or_eq, or_comm]
  · intro a b
    rw [(g.edges_addBlock o a).1, (g.edges_addBlock o b).2, h.edge_iff]
  · intro a b hb
    rw [(g.edges_addBlock o a).1] at hb
    exact (mem_live_addBlock g o b).2 (.inr (h.succs_live a b hb))
  · intro a
    rw [(g.edges_addBlock o a).2]
    exact h.preds_nodup a

/-- What holds of a graph and a block after the block at an offset was asked for. -/
structure Ensured (o : Int) (g g' : Graph) (b : BlockId) : Prop where
  wellFormed : g'.WellFormed
  toExtends : g.Extends g'
  mem_live : b ∈ g'.live
  offset_eq : g'.offset b = o
  old : ∀ a ∈ g.live, g'.block a = g.block a
  new : ∀ a ∈ g'.live, a ∈ g.live ∨ g'.block a = { offset := o }

/-- A new block adds to the graph. -/
theorem extends_addBlock (g : Graph) (o : Int) : g.Extends (g.addBlock o) := by
  refine ⟨by simp, Nat.le_refl _, fun _ _ => rfl, ?_, ?_, ?_, ?_⟩
  · intro a ha
    rw [offset, block_addBlock, if_neg (Nat.ne_of_lt ha), offset]
  · exact fun a ha => (mem_live_addBlock g o a).2 (.inr ha)
  · intro a k v hv
    rcases g.block_addBlock_cases o a with ⟨-, hdefault⟩ | hblock
    · rw [hdefault] at hv
      cases hv
    · rwa [hblock]
  · intro a k v hv
    rcases g.block_addBlock_cases o a with ⟨-, hdefault⟩ | hblock
    · rw [hdefault] at hv
      cases hv
    · rwa [hblock]

/-- A block that is asked for is there, found or made. -/
theorem WellFormed.ensure (h : g.WellFormed) (o : Int) :
    Ensured o g (g.ensure o).2 (g.ensure o).1 := by
  unfold Graph.ensure
  split
  · rename_i b hb
    obtain ⟨hlive, hoffset⟩ := offset_of_find?_eq_some hb
    exact ⟨h, .refl g, hlive, hoffset, fun _ _ => rfl, fun _ ha => .inl ha⟩
  · rename_i hnone
    refine ⟨h.addBlock hnone, g.extends_addBlock o, (mem_live_addBlock g o _).2 (.inl rfl), ?_,
      fun a ha => h.block_addBlock_of_mem o ha, ?_⟩
    · rw [offset, block_addBlock, if_pos rfl]
    · intro a ha
      rcases (mem_live_addBlock g o a).1 ha with rfl | ha
      · exact .inr (by rw [block_addBlock, if_pos rfl])
      · exact .inl ha

/-- A new block has no edges. -/
theorem Ensured.mem_succs {o : Int} {d : BlockId} (h : Ensured o g g' b)
    (ha : a ∈ (g'.block d).succs) : a ∈ (g.block d).succs := by
  by_cases hd : d ∈ g.live
  · rwa [h.old d hd] at ha
  · by_cases hd' : d ∈ g'.live
    · rw [(h.new d hd').resolve_left hd] at ha
      cases ha
    · have hsize : g'.blocks.size ≤ d := Nat.le_of_not_lt fun hlt =>
        hd' ((h.wellFormed.mem_live_iff d).2 hlt)
      rw [block_of_size_le hsize] at ha
      cases ha

/-! ## Leaving a block -/

/-- Whether nothing but the predecessors of a block changed. -/
def Keeps (a : BlockId) (g g' : Graph) : Prop := ∃ preds, g'.block a = { g.block a with preds }

theorem Keeps.of_eq (h : g'.block a = g.block a) : Keeps a g g' := ⟨_, h⟩

theorem Keeps.trans (h : Keeps a g g') (h' : Keeps a g' g'') : Keeps a g g'' := by
  obtain ⟨preds, heq⟩ := h
  obtain ⟨preds', heq'⟩ := h'
  exact ⟨preds', by rw [heq', heq]⟩

/-- What is added is in the list, beside what was there. -/
theorem mem_addNew {α : Type} [DecidableEq α] (x y : α) (l : List α) :
    x ∈ addNew y l ↔ x = y ∨ x ∈ l := by
  unfold addNew
  split
  · rename_i hy
    exact ⟨.inr, fun h => h.elim (fun h => h ▸ hy) id⟩
  · simp [or_comm]

/-- Several may be added one after the other. -/
theorem mem_foldl_addNew {α : Type} [DecidableEq α] (x : α) (ys l : List α) :
    x ∈ ys.foldl (fun l y => addNew y l) l ↔ x ∈ l ∨ x ∈ ys := by
  induction ys generalizing l with
  | nil => simp
  | cons y ys ih =>
    rw [List.foldl_cons, ih, mem_addNew, List.mem_cons, or_comm (a := x = y), or_assoc]

/-- What is there already is not added again. -/
theorem nodup_addNew {α : Type} [DecidableEq α] {x : α} {l : List α} (h : l.Nodup) :
    (addNew x l).Nodup := by
  unfold addNew
  split
  · exact h
  · rename_i hx
    exact List.nodup_append.2 ⟨h, by simp, fun y hy z hz hyz =>
      hx (List.mem_singleton.1 hz ▸ hyz ▸ hy)⟩

theorem addNew_of_mem {α : Type} [DecidableEq α] {x : α} {l : List α} (h : x ∈ l) :
    addNew x l = l := if_pos h

/-- An edge is written at both ends. -/
theorem block_connect {n : BlockId} (hb : b < g.blocks.size) (hn : n < g.blocks.size)
    (a : BlockId) : (g.connect b n).block a = { g.block a with
      succs := if a = b then addNew n (g.block a).succs else (g.block a).succs
      preds := if a = n then addNew b (g.block a).preds else (g.block a).preds } := by
  rw [connect, block_modifyBlock, size_modifyBlock, block_modifyBlock]
  by_cases hab : a = b <;> by_cases han : a = n <;> simp [hab, han, hb, hn] <;> simp_all

@[simp]
theorem size_connect (g : Graph) (b n : BlockId) : (g.connect b n).blocks.size = g.blocks.size := by
  simp [connect]

/-- Several edges from one block are written at all their ends. -/
theorem block_foldl_connect {ts : List BlockId} (hb : b < g.blocks.size)
    (hts : ∀ n ∈ ts, n < g.blocks.size) (a : BlockId) :
    (ts.foldl (fun g n => g.connect b n) g).block a = { g.block a with
      succs := if a = b then ts.foldl (fun l n => addNew n l) (g.block a).succs
        else (g.block a).succs
      preds := if a ∈ ts then addNew b (g.block a).preds else (g.block a).preds } := by
  induction ts generalizing g with
  | nil => simp
  | cons n ts ih =>
    rw [List.foldl_cons, ih (by simpa using hb) fun m hm => by
      simpa using hts m (List.mem_cons_of_mem _ hm),
      block_connect hb (hts n List.mem_cons_self)]
    by_cases hab : a = b <;> by_cases han : a = n <;> by_cases hat : a ∈ ts <;>
      simp_all [addNew_of_mem, mem_addNew]

/-- Edges change neither which blocks there are nor the values. -/
theorem foldl_connect_frame (g : Graph) (b : BlockId) (ts : List BlockId) :
    (ts.foldl (fun g n => g.connect b n) g).live = g.live ∧
      (ts.foldl (fun g n => g.connect b n) g).definitions = g.definitions ∧
      (ts.foldl (fun g n => g.connect b n) g).blocks.size = g.blocks.size := by
  induction ts generalizing g with
  | nil => exact ⟨rfl, rfl, rfl⟩
  | cons n ts ih =>
    obtain ⟨hlive, hdefs, hsize⟩ := ih (g.connect b n)
    exact ⟨hlive, hdefs, by rw [List.foldl_cons, hsize, size_connect]⟩

/-- The targets of a terminator are connected once each. -/
theorem foldl_addNew_targets (t : Terminator) :
    t.targets.foldl (fun l n => addNew n l) [] = t.targets.eraseDups := by
  cases t with
  | jump n => rfl
  | branch v n m =>
    by_cases h : m = n
    · simp [Terminator.targets, addNew, h, List.eraseDups_cons]
    · simp [Terminator.targets, addNew, h, List.eraseDups_cons]
  | ret v => rfl
  | retVoid => rfl

/-- What holds of a graph after a block was left. -/
structure Terminated (b : BlockId) (t : Terminator) (g g' : Graph) : Prop where
  wellFormed : g'.WellFormed
  toExtends : g.Extends g'
  live_eq : g'.live = g.live
  self : ∃ preds line, g'.block b = { g.block b with
    preds, terminator := some t, terminatorLine := line, succs := t.targets.eraseDups }
  others : ∀ a, a ≠ b → Keeps a g g'

/-- A block that is left gets its terminator, its line and the edges to its targets. -/
theorem block_terminate (hb : b < g.blocks.size) {line : Int} {t : Terminator}
    (ht : ∀ n ∈ t.targets, n < g.blocks.size) (hok : g.terminate b line t = .ok g')
    (a : BlockId) : g'.block a = if a = b then { g.block a with
        terminator := some t
        terminatorLine := line
        succs := t.targets.foldl (fun l n => addNew n l) (g.block a).succs
        preds := if a ∈ t.targets then addNew b (g.block a).preds else (g.block a).preds }
      else { g.block a with
        preds := if a ∈ t.targets then addNew b (g.block a).preds else (g.block a).preds } := by
  unfold Graph.terminate at hok
  split at hok
  · cases hok
  · cases hok
    rw [block_foldl_connect (by simpa using hb) (by simpa using ht), block_modifyBlock]
    by_cases hab : a = b
    · subst hab
      simp [hb]
    · simp [hab]

/-- Leaving a block changes neither which blocks there are nor the values. -/
theorem terminate_frame {line : Int} {t : Terminator} (hok : g.terminate b line t = .ok g') :
    g'.live = g.live ∧ g'.definitions = g.definitions ∧ g'.blocks.size = g.blocks.size := by
  unfold Graph.terminate at hok
  split at hok
  · cases hok
  · cases hok
    obtain ⟨hlive, hdefs, hsize⟩ := foldl_connect_frame
      (g.modifyBlock b fun x => { x with terminator := some t, terminatorLine := line }) b t.targets
    exact ⟨hlive, hdefs, hsize.trans (size_modifyBlock ..)⟩

/-- Leaving a block adds the edges to its targets. -/
theorem edges_terminate (hb : b < g.blocks.size) {line : Int} {t : Terminator}
    (ht : ∀ n ∈ t.targets, n < g.blocks.size) (hok : g.terminate b line t = .ok g')
    (a c : BlockId) :
    (c ∈ (g'.block a).succs ↔ c ∈ (g.block a).succs ∨ a = b ∧ c ∈ t.targets) ∧
      (c ∈ (g'.block a).preds ↔ c ∈ (g.block a).preds ∨ c = b ∧ a ∈ t.targets) := by
  rw [block_terminate hb ht hok]
  constructor
  · split
    · rename_i hab
      simp only [mem_foldl_addNew, hab, true_and]
    · rename_i hab
      simp [hab]
  · by_cases hat : a ∈ t.targets
    · split <;> simp [hat, mem_addNew, or_comm]
    · split <;> simp [hat]

/-- Leaving a block changes no offsets, phis, code and stacks. -/
theorem stays_terminate (hb : b < g.blocks.size) {line : Int} {t : Terminator}
    (ht : ∀ n ∈ t.targets, n < g.blocks.size) (hok : g.terminate b line t = .ok g')
    (a : BlockId) :
    g'.offset a = g.offset a ∧ (g'.block a).phis = (g.block a).phis ∧
      (g'.block a).body = (g.block a).body ∧ (g'.block a).used = (g.block a).used := by
  rw [offset, block_terminate hb ht hok, offset]
  split <;> exact ⟨rfl, rfl, rfl, rfl⟩

/-- A block without successors may be left for blocks of the graph. -/
theorem WellFormed.terminate (h : g.WellFormed) (hb : b ∈ g.live) (hsuccs : (g.block b).succs = [])
    {line : Int} {t : Terminator} (ht : ∀ n ∈ t.targets, n ∈ g.live)
    (hok : g.terminate b line t = .ok g') : Terminated b t g g' := by
  have hlt := (h.mem_live_iff b).1 hb
  have hltt : ∀ n ∈ t.targets, n < g.blocks.size := fun n hn => (h.mem_live_iff n).1 (ht n hn)
  have hblock := block_terminate hlt hltt hok
  have hstay := stays_terminate hlt hltt hok
  obtain ⟨hlive, hdefs, hsize⟩ := terminate_frame hok
  have hdef : ∀ v, g'.definition v = g.definition v := fun v => by
    rw [definition, hdefs, definition]
  refine ⟨⟨?_, ?_, ?_, ?_, ?_, ?_, ?_⟩, ⟨?_, ?_, ?_, ?_, ?_, ?_, ?_⟩, hlive, ?_, ?_⟩
  · rw [Ordered, hlive]
    exact h.ordered.imp fun hac => by rwa [(hstay _).1, (hstay _).1]
  · intro a
    rw [hlive, hsize, h.mem_live_iff]
  · intro a c
    rw [(edges_terminate hlt hltt hok a c).1, (edges_terminate hlt hltt hok c a).2, h.edge_iff]
  · intro a c hc
    rw [hlive]
    rcases (edges_terminate hlt hltt hok a c).1.1 hc with hc | ⟨-, hc⟩
    · exact h.succs_live a c hc
    · exact ht c hc
  · intro a
    have hpreds : (g'.block a).preds =
        if a ∈ t.targets then addNew b (g.block a).preds else (g.block a).preds := by
      rw [hblock]
      split <;> rfl
    rw [hpreds]
    split
    · exact nodup_addNew (h.preds_nodup a)
    · exact h.preds_nodup a
  · exact h.typed.of_same hdefs (fun a => (hstay a).2.1) (fun a => (hstay a).2.2.1)
      fun a => (hstay a).2.2.2 ▸ h.typed.used_le a
  · intro v p hp
    rw [hdef] at hp
    exact h.unfed v p hp
  · exact Nat.le_of_eq hsize.symm
  · exact Nat.le_of_eq (congrArg _ hdefs.symm)
  · exact fun v _ => hdef v
  · exact fun a _ => (hstay a).1
  · exact fun a ha => hlive ▸ ha
  · intro a k v hv
    rwa [(hstay a).2.1]
  · intro a k v hv
    rwa [(hstay a).2.2.1]
  · exact ⟨_, line, by rw [hblock, if_pos rfl, hsuccs, foldl_addNew_targets]⟩
  · exact fun a ha => ⟨_, by rw [hblock, if_neg ha]⟩

end StackLift.Graph
