/-
# What the operations on a graph change

A lift only ever adds to its graph: blocks, values, and phis and code of blocks.  What has been
made stays as it is.

* `Graph.Extends` : a graph that came out of another one;
* `Graph.WorksIn` : the same if only the code and the stack of one block changed;
* `Graph.Slotted` : phis are phis, by slot;
* `Graph.Typed` : besides, other values are none;
* `Graph.Advances` : work in a block that leaves it so.
-/
import StackLift.Graph.Stack

namespace StackLift.Graph

variable {g g' g'' : Graph} {a b : BlockId} {v : ValueId}

/-! ## Access -/

/-- A number that no block has stands for the default one. -/
theorem block_of_size_le (h : g.blocks.size ≤ b) : g.block b = default := by
  rw [block, Array.getD_eq_getD_getElem?, Array.getElem?_eq_none h, Option.getD_none]

/-- A number that no value has stands for the default one. -/
theorem definition_of_size_le (h : g.definitions.size ≤ v) : g.definition v = default := by
  rw [definition, Array.getD_eq_getD_getElem?, Array.getElem?_eq_none h, Option.getD_none]

/-- Changing a block changes that one only. -/
theorem block_modifyBlock (g : Graph) (b a : BlockId) (f : Block → Block) :
    (g.modifyBlock b f).block a =
      if a = b ∧ b < g.blocks.size then f (g.block a) else g.block a := by
  simp only [block, modifyBlock, Array.getD_eq_getD_getElem?, Array.getElem?_modify]
  by_cases hab : b = a
  · subst hab
    by_cases hb : b < g.blocks.size
    · rw [if_pos rfl, if_pos ⟨rfl, hb⟩, Array.getElem?_eq_getElem hb]
      rfl
    · rw [if_pos rfl, if_neg (hb ·.2), Array.getElem?_eq_none (Nat.le_of_not_lt hb)]
      rfl
  · rw [if_neg hab, if_neg fun h => hab h.1.symm]

/-- The block that a change is made to. -/
theorem block_modifyBlock_self (hb : b < g.blocks.size) (f : Block → Block) :
    (g.modifyBlock b f).block b = f (g.block b) := by
  rw [block_modifyBlock, if_pos ⟨rfl, hb⟩]

/-- A change to a block leaves the other ones alone. -/
theorem block_modifyBlock_of_ne (hab : a ≠ b) (f : Block → Block) :
    (g.modifyBlock b f).block a = g.block a := by
  rw [block_modifyBlock, if_neg (hab ·.1)]

/-- Changes with one outcome for a block change a graph alike. -/
theorem modifyBlock_congr {f f' : Block → Block} (h : f (g.block b) = f' (g.block b)) :
    g.modifyBlock b f = g.modifyBlock b f' := by
  have hblocks : g.blocks.modify b f = g.blocks.modify b f' := by
    refine Array.ext_getElem? fun k => ?_
    rw [Array.getElem?_modify, Array.getElem?_modify]
    split
    · rename_i hk
      subst hk
      cases hx : g.blocks[b]? with
      | none => rfl
      | some x =>
        rw [block, Array.getD_eq_getD_getElem?, hx, Option.getD_some] at h
        rw [Option.map_some, Option.map_some, h]
    · rfl
  rw [modifyBlock, hblocks, modifyBlock]

/-- A change to a block leaves the values alone. -/
@[simp]
theorem definitions_modifyBlock (g : Graph) (b : BlockId) (f : Block → Block) :
    (g.modifyBlock b f).definitions = g.definitions := rfl

@[simp]
theorem definition_modifyBlock (g : Graph) (b : BlockId) (f : Block → Block) (v : ValueId) :
    (g.modifyBlock b f).definition v = g.definition v := rfl

/-- A change to a block makes no other one. -/
@[simp]
theorem size_modifyBlock (g : Graph) (b : BlockId) (f : Block → Block) :
    (g.modifyBlock b f).blocks.size = g.blocks.size := by
  simp [modifyBlock]

/-- A new value is in the code of no block yet. -/
@[simp]
theorem block_addDefinition (g : Graph) (b a : BlockId) (line : Int) (e : Option Expr) :
    (g.addDefinition b line e).block a = g.block a := rfl

@[simp]
theorem blocks_addDefinition (g : Graph) (b : BlockId) (line : Int) (e : Option Expr) :
    (g.addDefinition b line e).blocks = g.blocks := rfl

/-- A new value is one more. -/
@[simp]
theorem count_addDefinition (g : Graph) (b : BlockId) (line : Int) (e : Option Expr) :
    (g.addDefinition b line e).definitions.size = g.definitions.size + 1 := by
  simp [addDefinition]

/-- A new value gets the next number. -/
theorem definition_addDefinition (g : Graph) (b : BlockId) (line : Int) (e : Option Expr)
    (v : ValueId) : (g.addDefinition b line e).definition v =
      if v = g.definitions.size then ⟨line, b, e⟩ else g.definition v := by
  simp only [definition, addDefinition, Array.getD_eq_getD_getElem?, Array.getElem?_push]
  split <;> rfl

/-! ## Growing -/

/-- Whether a graph came out of another one by adding to it. -/
structure Extends (g g' : Graph) : Prop where
  size_le : g.blocks.size ≤ g'.blocks.size
  count_le : g.definitions.size ≤ g'.definitions.size
  definition_eq : ∀ v < g.definitions.size, g'.definition v = g.definition v
  offset_eq : ∀ b < g.blocks.size, g'.offset b = g.offset b
  live_subset : ∀ b ∈ g.live, b ∈ g'.live
  phis_mono : ∀ b (k : Nat) v, (g.block b).phis[k]? = some v → (g'.block b).phis[k]? = some v
  body_mono : ∀ b (k : Nat) v, (g.block b).body[k]? = some v → (g'.block b).body[k]? = some v

theorem Extends.refl (g : Graph) : g.Extends g :=
  ⟨Nat.le_refl _, Nat.le_refl _, fun _ _ => rfl, fun _ _ => rfl, fun _ h => h, fun _ _ _ h => h,
    fun _ _ _ h => h⟩

/-- What is added later comes on top of what was added before. -/
theorem Extends.trans (h : g.Extends g') (h' : g'.Extends g'') : g.Extends g'' where
  size_le := Nat.le_trans h.size_le h'.size_le
  count_le := Nat.le_trans h.count_le h'.count_le
  definition_eq v hv := by
    rw [h'.definition_eq v (Nat.lt_of_lt_of_le hv h.count_le), h.definition_eq v hv]
  offset_eq b hb := by
    rw [h'.offset_eq b (Nat.lt_of_lt_of_le hb h.size_le), h.offset_eq b hb]
  live_subset b hb := h'.live_subset b (h.live_subset b hb)
  phis_mono b k v hv := h'.phis_mono b k v (h.phis_mono b k v hv)
  body_mono b k v hv := h'.body_mono b k v (h.body_mono b k v hv)

/-- A longer array has all elements of a shorter one in their places. -/
theorem size_le_of_getElem? {xs ys : Array ValueId}
    (h : ∀ (k : Nat) v, xs[k]? = some v → ys[k]? = some v) : xs.size ≤ ys.size := by
  by_cases hsize : xs.size = 0
  · omega
  · have hlt : xs.size - 1 < xs.size := by omega
    have := h _ _ (Array.getElem?_eq_getElem hlt)
    have := (Array.getElem?_eq_some_iff.1 this).1
    omega

/-- No phi of an entry slot is taken away. -/
theorem Extends.phis_size_le (h : g.Extends g') (b : BlockId) :
    (g.block b).phis.size ≤ (g'.block b).phis.size := size_le_of_getElem? (h.phis_mono b)

/-- Whether a graph came out of another one by work in one block: its stack changed, and it got
more phis and more code. -/
structure WorksIn (b : BlockId) (g g' : Graph) : Prop where
  live_eq : g'.live = g.live
  size_eq : g'.blocks.size = g.blocks.size
  others : ∀ a, a ≠ b → g'.block a = g.block a
  fields : ∃ phis body stack used, g'.block b = { g.block b with phis, body, stack, used }
  phis_mono : ∀ (k : Nat) v, (g.block b).phis[k]? = some v → (g'.block b).phis[k]? = some v
  body_mono : ∀ (k : Nat) v, (g.block b).body[k]? = some v → (g'.block b).body[k]? = some v
  count_le : g.definitions.size ≤ g'.definitions.size
  definition_eq : ∀ v < g.definitions.size, g'.definition v = g.definition v

namespace WorksIn

theorem refl (b : BlockId) (g : Graph) : g.WorksIn b g :=
  ⟨rfl, rfl, fun _ _ => rfl, ⟨_, _, _, _, rfl⟩, fun _ _ h => h, fun _ _ h => h, Nat.le_refl _,
    fun _ _ => rfl⟩

/-- Work in a block may be done in parts. -/
theorem trans (h : WorksIn b g g') (h' : WorksIn b g' g'') : WorksIn b g g'' where
  live_eq := h'.live_eq.trans h.live_eq
  size_eq := h'.size_eq.trans h.size_eq
  others a ha := (h'.others a ha).trans (h.others a ha)
  fields := by
    obtain ⟨phis, body, stack, used, heq⟩ := h.fields
    obtain ⟨phis', body', stack', used', heq'⟩ := h'.fields
    exact ⟨phis', body', stack', used', by rw [heq', heq]⟩
  phis_mono k v hv := h'.phis_mono k v (h.phis_mono k v hv)
  body_mono k v hv := h'.body_mono k v (h.body_mono k v hv)
  count_le := Nat.le_trans h.count_le h'.count_le
  definition_eq v hv := by
    rw [h'.definition_eq v (Nat.lt_of_lt_of_le hv h.count_le), h.definition_eq v hv]

/-- Work in a block changes no edges and no offsets. -/
theorem offset_eq (h : WorksIn b g g') (a : BlockId) : g'.offset a = g.offset a := by
  by_cases ha : a = b
  · obtain ⟨phis, body, stack, used, heq⟩ := h.fields
    rw [ha, offset, heq, offset]
  · rw [offset, h.others a ha, offset]

/-- Work in a block adds no predecessors, to no block. -/
theorem preds_eq (h : WorksIn b g g') (a : BlockId) : (g'.block a).preds = (g.block a).preds := by
  by_cases ha : a = b
  · obtain ⟨phis, body, stack, used, heq⟩ := h.fields
    rw [ha, heq]
  · rw [h.others a ha]

/-- Work in a block adds no successors, to no block. -/
theorem succs_eq (h : WorksIn b g g') (a : BlockId) : (g'.block a).succs = (g.block a).succs := by
  by_cases ha : a = b
  · obtain ⟨phis, body, stack, used, heq⟩ := h.fields
    rw [ha, heq]
  · rw [h.others a ha]

/-- Work in a block does not leave it. -/
theorem terminator_eq (h : WorksIn b g g') (a : BlockId) :
    (g'.block a).terminator = (g.block a).terminator := by
  by_cases ha : a = b
  · obtain ⟨phis, body, stack, used, heq⟩ := h.fields
    rw [ha, heq]
  · rw [h.others a ha]

/-- Work in a block only adds to the graph. -/
theorem toExtends (h : WorksIn b g g') : g.Extends g' where
  size_le := Nat.le_of_eq h.size_eq.symm
  count_le := h.count_le
  definition_eq := h.definition_eq
  offset_eq a _ := h.offset_eq a
  live_subset a ha := h.live_eq ▸ ha
  phis_mono a k v hv := by
    by_cases ha : a = b
    · exact ha ▸ h.phis_mono k v (ha ▸ hv)
    · rwa [h.others a ha]
  body_mono a k v hv := by
    by_cases ha : a = b
    · exact ha ▸ h.body_mono k v (ha ▸ hv)
    · rwa [h.others a ha]

end WorksIn

/-! ## The stack of a block -/

/-- The phi of a new entry slot comes behind the other ones of its block. -/
theorem block_addSlot_self (hb : b < g.blocks.size) (line : Int) :
    (g.addSlot b line).block b =
      { g.block b with phis := (g.block b).phis.push g.definitions.size } :=
  block_modifyBlock_self hb _

/-- Making a phi is work in its block. -/
theorem worksIn_addSlot (g : Graph) (b : BlockId) (line : Int) :
    WorksIn b g (g.addSlot b line) where
  live_eq := rfl
  size_eq := size_modifyBlock ..
  others a ha := block_modifyBlock_of_ne ha _
  fields := by
    rw [addSlot, block_modifyBlock]
    split <;> exact ⟨_, _, _, _, rfl⟩
  phis_mono k v hv := by
    rw [addSlot, block_modifyBlock]
    split
    · obtain ⟨hk, rfl⟩ := Array.getElem?_eq_some_iff.1 hv
      rw [block_addDefinition, Array.getElem?_push_lt hk]
    · exact hv
  body_mono k v hv := by
    rw [addSlot, block_modifyBlock]
    split <;> exact hv
  count_le := by simp [addSlot]
  definition_eq v hv := by
    rw [addSlot, definition_modifyBlock, definition_addDefinition, if_neg (Nat.ne_of_lt hv)]

/-- Making several phis is work in their block. -/
theorem worksIn_addSlots (g : Graph) (b : BlockId) (line : Int) (n : Nat) :
    WorksIn b g (g.addSlots b line n) := by
  induction n generalizing g with
  | zero => exact .refl b g
  | succ n ih => exact (g.worksIn_addSlot b line).trans (ih _)

/-- Making phis adds that many of them to the block. -/
theorem block_addSlots_self (hb : b < g.blocks.size) (line : Int) (n : Nat) :
    ∃ new : Array ValueId, new.size = n ∧
      (g.addSlots b line n).block b = { g.block b with phis := (g.block b).phis ++ new } := by
  induction n generalizing g with
  | zero => exact ⟨#[], rfl, by simp [addSlots]⟩
  | succ n ih =>
    obtain ⟨new, hsize, hblock⟩ := ih (g := g.addSlot b line)
      ((g.worksIn_addSlot b line).size_eq ▸ hb)
    refine ⟨#[g.definitions.size] ++ new, ?_, ?_⟩
    · simp [hsize, Nat.add_comm]
    · rw [addSlots, hblock, block_addSlot_self hb]
      simp

/-- Asking for the phi of an entry slot is work in its block. -/
theorem worksIn_reach (g : Graph) (b : BlockId) (line : Int) (depth : Nat) :
    WorksIn b g (g.reach b line depth) := g.worksIn_addSlots b line _

/-- Reaching an entry slot makes the phis up to it. -/
theorem block_reach_self (hb : b < g.blocks.size) (line : Int) (depth : Nat) :
    ∃ new : Array ValueId, new.size = depth + 1 - (g.block b).phis.size ∧
      (g.reach b line depth).block b = { g.block b with phis := (g.block b).phis ++ new } :=
  block_addSlots_self hb line _

/-- The phi of an entry slot is in its place. -/
theorem getElem?_entrySlot (hb : b < g.blocks.size) (line : Int) (depth : Nat) :
    ((g.entrySlot b line depth).2.block b).phis[depth]? = some (g.entrySlot b line depth).1 := by
  obtain ⟨new, hsize, hblock⟩ := block_reach_self hb line depth
  have hlt : depth < ((g.reach b line depth).block b).phis.size := by
    rw [hblock, Array.size_append, hsize]
    omega
  simp only [entrySlot, Array.getD_eq_getD_getElem?, Array.getElem?_eq_getElem hlt,
    Option.getD_some]

/-- A change to the stack of a block is work in it. -/
theorem worksIn_modifyBlock {f : Block → Block}
    (hf : ∃ stack used, f (g.block b) = { g.block b with stack, used }) :
    WorksIn b g (g.modifyBlock b f) := by
  obtain ⟨stack, used, hf⟩ := hf
  refine ⟨rfl, size_modifyBlock .., fun a ha => block_modifyBlock_of_ne ha _, ?_, ?_, ?_,
    Nat.le_refl _, fun _ _ => rfl⟩
  · rw [block_modifyBlock, hf]
    split <;> exact ⟨_, _, _, _, rfl⟩
  · intro k v hv
    rw [block_modifyBlock, hf]
    split <;> exact hv
  · intro k v hv
    rw [block_modifyBlock, hf]
    split <;> exact hv

/-- Looking at the top is work in a block. -/
theorem worksIn_peek (g : Graph) (b : BlockId) (line : Int) :
    WorksIn b g (g.peek b line).2 := by
  unfold peek
  split
  · exact .refl b g
  · exact g.worksIn_reach b line _

/-- Looking at the top of a block shows its stack, or else the next entry slot. -/
theorem peek_cases (hb : b < g.blocks.size) (line : Int) :
    (∃ v rest, (g.block b).stack = v :: rest ∧ (g.peek b line).1 = v ∧
      (g.peek b line).2.block b = g.block b) ∨
    ∃ new v, (g.block b).stack = [] ∧ new.size = (g.block b).used + 1 - (g.block b).phis.size ∧
      (g.peek b line).1 = some v ∧ ((g.block b).phis ++ new)[(g.block b).used]? = some v ∧
      (g.peek b line).2.block b = { g.block b with phis := (g.block b).phis ++ new } := by
  unfold peek
  split
  · rename_i v rest hstack
    exact .inl ⟨v, rest, hstack, rfl, rfl⟩
  · rename_i hstack
    obtain ⟨new, hsize, hblock⟩ := block_reach_self hb line (g.block b).used
    have hslot := getElem?_entrySlot hb line (g.block b).used
    refine .inr ⟨new, _, hstack, hsize, rfl, ?_, hblock⟩
    simpa only [entrySlot, hblock] using hslot

/-- A block without the top of its stack, or else without its next entry slot. -/
def dropTop (x : Block) : Block :=
  match x.stack with
  | _ :: rest => { x with stack := rest }
  | [] => { x with used := x.used + 1 }

/-- What was pushed is dropped first. -/
theorem dropTop_of_cons {x : Block} {u : Operand} {rest : List Operand}
    (h : x.stack = u :: rest) : dropTop x = { x with stack := rest } := by
  rw [dropTop, h]

/-- Where nothing is left of what was pushed, the next entry slot counts as popped. -/
theorem dropTop_of_nil {x : Block} (h : x.stack = []) :
    dropTop x = { x with used := x.used + 1 } := by
  rw [dropTop, h]

/-- Dropping the top changes the stack and the count of popped slots, and nothing else. -/
theorem exists_dropTop_eq (x : Block) : ∃ stack used, dropTop x = { x with stack, used } := by
  unfold dropTop
  split <;> exact ⟨_, _, rfl⟩

@[simp]
theorem phis_dropTop (x : Block) : (dropTop x).phis = x.phis := by
  obtain ⟨stack, used, heq⟩ := exists_dropTop_eq x
  rw [heq]

@[simp]
theorem body_dropTop (x : Block) : (dropTop x).body = x.body := by
  obtain ⟨stack, used, heq⟩ := exists_dropTop_eq x
  rw [heq]

/-- Phis are not pushed when they are made. -/
theorem stack_addSlots (g : Graph) (b : BlockId) (line : Int) (n : Nat) :
    ((g.addSlots b line n).block b).stack = (g.block b).stack := by
  induction n generalizing g with
  | zero => rfl
  | succ n ih =>
    rw [addSlots, ih, addSlot, block_modifyBlock]
    split <;> rfl

/-- Popping looks at the top and takes it. -/
theorem pop_eq (g : Graph) (b : BlockId) (line : Int) :
    g.pop b line = ((g.peek b line).1, (g.peek b line).2.modifyBlock b dropTop) := by
  unfold pop peek
  split
  · rename_i v rest hstack
    exact congrArg (v, ·) (modifyBlock_congr (dropTop_of_cons hstack).symm)
  · rename_i hstack
    have hempty : ((g.reach b line (g.block b).used).block b).stack = [] :=
      (g.stack_addSlots b line _).trans hstack
    exact congrArg (some _, ·) (modifyBlock_congr (dropTop_of_nil hempty).symm)

/-- Popping is work in a block. -/
theorem worksIn_pop (g : Graph) (b : BlockId) (line : Int) :
    WorksIn b g (g.pop b line).2 := by
  rw [pop_eq]
  exact (g.worksIn_peek b line).trans (worksIn_modifyBlock (exists_dropTop_eq _))

/-- Pushing is work in a block. -/
theorem worksIn_push (g : Graph) (b : BlockId) (v : Operand) : WorksIn b g (g.push b v) :=
  worksIn_modifyBlock ⟨_, _, rfl⟩

/-- Making a value is work in its block. -/
theorem worksIn_define (g : Graph) (b : BlockId) (line : Int) (e : Option Expr) :
    WorksIn b g (g.define b line e).2 where
  live_eq := rfl
  size_eq := size_modifyBlock ..
  others a ha := block_modifyBlock_of_ne ha _
  fields := by
    rw [define, block_modifyBlock]
    split <;> exact ⟨_, _, _, _, rfl⟩
  phis_mono k v hv := by
    rw [define, block_modifyBlock]
    split <;> exact hv
  body_mono k v hv := by
    rw [define, block_modifyBlock]
    split
    · obtain ⟨hk, rfl⟩ := Array.getElem?_eq_some_iff.1 hv
      rw [block_addDefinition, Array.getElem?_push_lt hk]
    · exact hv
  count_le := by simp [define]
  definition_eq v hv := by
    rw [define, definition_modifyBlock, definition_addDefinition, if_neg (Nat.ne_of_lt hv)]

/-- The graph with a new value at the end of a block, which is pushed there. -/
def emit (g : Graph) (b : BlockId) (line : Int) (e : Expr) : Graph :=
  (g.define b line (some e)).2.push b (some g.definitions.size)

/-- A value that is emitted is the last one of the body, and on top of the stack. -/
theorem block_emit_self (hb : b < g.blocks.size) (line : Int) (e : Expr) :
    (g.emit b line e).block b = { g.block b with
      body := (g.block b).body.push g.definitions.size
      stack := some g.definitions.size :: (g.block b).stack } := by
  have hdefine : (g.define b line (some e)).2.block b =
      { g.block b with body := (g.block b).body.push g.definitions.size } :=
    block_modifyBlock_self hb _
  rw [emit, push, block_modifyBlock_self (by simpa [define] using hb), hdefine]

/-- A value that is emitted gets the next number. -/
theorem definition_emit (g : Graph) (b : BlockId) (line : Int) (e : Expr) (v : ValueId) :
    (g.emit b line e).definition v =
      if v = g.definitions.size then ⟨line, b, some e⟩ else g.definition v :=
  definition_addDefinition ..

/-- Emitting a value is work in its block. -/
theorem worksIn_emit (g : Graph) (b : BlockId) (line : Int) (e : Expr) :
    WorksIn b g (g.emit b line e) := (g.worksIn_define b line (some e)).trans (worksIn_push ..)

/-! ## Typed graphs -/

/-- Whether the phis of blocks are phis, each of its own slot. -/
def Slotted (g : Graph) : Prop :=
  ∀ b (k : Nat) v, (g.block b).phis[k]? = some v → v < g.definitions.size ∧
    (g.definition v).block = b ∧ ∃ p, (g.definition v).phi? = some p ∧ p.slot = k

/-- Whether the phis of blocks are phis, each of its own slot, their other values are none, and no
value is lost. -/
structure Typed (g : Graph) : Prop where
  phi : ∀ b (k : Nat) v, (g.block b).phis[k]? = some v → v < g.definitions.size ∧
    (g.definition v).block = b ∧ ∃ p, (g.definition v).phi? = some p ∧ p.slot = k
  body : ∀ b (k : Nat) v, (g.block b).body[k]? = some v → v < g.definitions.size ∧
    (g.definition v).block = b ∧ (g.definition v).phi? = none
  ascending : ∀ b, (g.block b).body.toList.Pairwise (· < ·)
  used_le : ∀ b, (g.block b).used ≤ (g.block b).phis.size
  placed : ∀ v < g.definitions.size, v ∈ (g.block (g.definition v).block).code

/-- The phis of a typed graph are in their slots. -/
theorem Typed.slotted (h : g.Typed) : g.Slotted := h.phi

/-- Whether nothing flows into the phis yet. -/
def Unfed (g : Graph) : Prop :=
  ∀ v p, (g.definition v).phi? = some p → p = { slot := p.slot }

/-- A new phi is of the slot that comes next, and nothing flows into it. -/
theorem definition_addSlot (g : Graph) (b : BlockId) (line : Int) (v : ValueId) :
    (g.addSlot b line).definition v = if v = g.definitions.size then
      ⟨line, b, some (.phi { slot := (g.block b).phis.size })⟩ else g.definition v :=
  definition_addDefinition ..

/-- A value is in the code of a block if it is one of its phis or in its body. -/
theorem mem_code_iff : v ∈ (g.block b).code ↔ v ∈ (g.block b).phis ∨ v ∈ (g.block b).body := by
  rw [Block.code, List.mem_append, Array.mem_toList_iff, Array.mem_toList_iff]

/-- A value stays in the code of its block. -/
theorem mem_code_of_extends (h : g.Extends g') (hv : v ∈ (g.block b).code) :
    v ∈ (g'.block b).code := by
  rw [mem_code_iff, Array.mem_iff_getElem?, Array.mem_iff_getElem?] at hv ⊢
  rcases hv with ⟨k, hk⟩ | ⟨k, hk⟩
  · exact .inl ⟨k, h.phis_mono b k v hk⟩
  · exact .inr ⟨k, h.body_mono b k v hk⟩

/-- Work in a block leaves the phis of blocks in their slots if this holds of those it got. -/
theorem Slotted.worksIn (h : g.Slotted) (hw : WorksIn b g g')
    (hphi : ∀ (k : Nat) v, (g'.block b).phis[k]? = some v → (g.block b).phis[k]? = some v ∨
      v < g'.definitions.size ∧ (g'.definition v).block = b ∧
        ∃ p, (g'.definition v).phi? = some p ∧ p.slot = k) : g'.Slotted := by
  intro a k v hv
  have hcases : (g.block a).phis[k]? = some v ∨ v < g'.definitions.size ∧
      (g'.definition v).block = a ∧ ∃ p, (g'.definition v).phi? = some p ∧ p.slot = k := by
    by_cases hab : a = b
    · exact hab ▸ hphi k v (hab ▸ hv)
    · exact .inl (hw.others a hab ▸ hv)
  rcases hcases with hold | hnew
  · obtain ⟨hlt, hrest⟩ := h a k v hold
    rw [hw.definition_eq v hlt]
    exact ⟨Nat.lt_of_lt_of_le hlt hw.count_le, hrest⟩
  · exact hnew

/-- Work in a block leaves a graph typed if what the block got is of the right kind. -/
theorem Typed.worksIn (h : g.Typed) (hw : WorksIn b g g')
    (hphi : ∀ (k : Nat) v, (g'.block b).phis[k]? = some v → (g.block b).phis[k]? = some v ∨
      v < g'.definitions.size ∧ (g'.definition v).block = b ∧
        ∃ p, (g'.definition v).phi? = some p ∧ p.slot = k)
    (hbody : ∀ (k : Nat) v, (g'.block b).body[k]? = some v → (g.block b).body[k]? = some v ∨
      v < g'.definitions.size ∧ (g'.definition v).block = b ∧ (g'.definition v).phi? = none)
    (hascending : (g'.block b).body.toList.Pairwise (· < ·))
    (hused : (g'.block b).used ≤ (g'.block b).phis.size)
    (hplaced : ∀ v < g'.definitions.size, v < g.definitions.size ∨
      (g'.definition v).block = b ∧ v ∈ (g'.block b).code) : g'.Typed := by
  refine ⟨h.slotted.worksIn hw hphi, ?_, ?_, ?_, ?_⟩
  · intro a k v hv
    have hcases : (g.block a).body[k]? = some v ∨ v < g'.definitions.size ∧
        (g'.definition v).block = a ∧ (g'.definition v).phi? = none := by
      by_cases hab : a = b
      · exact hab ▸ hbody k v (hab ▸ hv)
      · exact .inl (hw.others a hab ▸ hv)
    rcases hcases with hold | hnew
    · obtain ⟨hlt, hrest⟩ := h.body a k v hold
      rw [hw.definition_eq v hlt]
      exact ⟨Nat.lt_of_lt_of_le hlt hw.count_le, hrest⟩
    · exact hnew
  · intro a
    by_cases hab : a = b
    · exact hab ▸ hascending
    · exact hw.others a hab ▸ h.ascending a
  · intro a
    by_cases hab : a = b
    · exact hab ▸ hused
    · exact hw.others a hab ▸ h.used_le a
  · intro v hv
    rcases hplaced v hv with hold | ⟨hblock, hnew⟩
    · rw [hw.definition_eq v hold]
      exact mem_code_of_extends hw.toExtends (h.placed v hold)
    · rwa [hblock]

/-- A phi that is made for an entry slot is a new value. -/
theorem phis_addSlot {line : Int} {k : Nat} (h : ((g.addSlot b line).block a).phis[k]? = some v) :
    (g.block a).phis[k]? = some v ∨ v = g.definitions.size ∧ k = (g.block b).phis.size := by
  by_cases hab : a = b
  · subst hab
    rw [addSlot, block_modifyBlock] at h
    split at h
    · rw [Array.getElem?_push] at h
      split at h
      · rename_i hk
        cases h
        exact .inr ⟨rfl, hk⟩
      · exact .inl h
    · exact .inl h
  · rw [(g.worksIn_addSlot b line).others a hab] at h
    exact .inl h

/-- A phi was there before, or it has a new number. -/
theorem phis_addSlots {line : Int} {n k : Nat}
    (h : ((g.addSlots b line n).block a).phis[k]? = some v) :
    (g.block a).phis[k]? = some v ∨ g.definitions.size ≤ v := by
  induction n generalizing g with
  | zero => exact .inl h
  | succ n ih =>
    rcases ih h with hold | hnew
    · exact (phis_addSlot hold).imp_right fun hv => Nat.le_of_eq hv.1.symm
    · exact .inr (Nat.le_trans (g.worksIn_addSlot b line).count_le hnew)

/-- A phi that is made for an entry slot is one of that slot. -/
theorem slot_of_addSlot {line : Int} {k : Nat}
    (h : ((g.addSlot b line).block b).phis[k]? = some v) : (g.block b).phis[k]? = some v ∨
      v < (g.addSlot b line).definitions.size ∧ ((g.addSlot b line).definition v).block = b ∧
        ∃ p, ((g.addSlot b line).definition v).phi? = some p ∧ p.slot = k := by
  rcases phis_addSlot h with hold | ⟨rfl, rfl⟩
  · exact .inl hold
  · rw [definition_addSlot, if_pos rfl]
    exact .inr ⟨by simp [addSlot], rfl, _, rfl, rfl⟩

/-- A new phi is of the slot in which it stands. -/
theorem Slotted.addSlot (h : g.Slotted) (b : BlockId) (line : Int) : (g.addSlot b line).Slotted :=
  h.worksIn (g.worksIn_addSlot b line) fun _ _ => slot_of_addSlot

theorem Slotted.addSlots (h : g.Slotted) (b : BlockId) (line : Int) (n : Nat) :
    (g.addSlots b line n).Slotted := by
  induction n generalizing g with
  | zero => exact h
  | succ n ih => exact ih (h.addSlot b line)

/-- A new phi is among the phis of its block, and the count of popped slots stays below theirs. -/
theorem Typed.addSlot (h : g.Typed) (hb : b < g.blocks.size) (line : Int) :
    (g.addSlot b line).Typed := by
  have hblock := block_addSlot_self hb line
  refine h.worksIn (g.worksIn_addSlot b line) (fun _ _ => slot_of_addSlot) ?_ ?_ ?_ ?_
  · intro k v hv
    exact .inl (by rwa [hblock] at hv)
  · rw [hblock]
    exact h.ascending b
  · rw [hblock, Array.size_push]
    exact Nat.le_succ_of_le (h.used_le b)
  · intro v hv
    rcases Nat.lt_succ_iff_lt_or_eq.1 (count_addDefinition .. ▸ hv) with hold | rfl
    · exact .inl hold
    · rw [definition_addSlot, if_pos rfl, mem_code_iff, hblock]
      exact .inr ⟨rfl, .inl Array.mem_push_self⟩

theorem Typed.addSlots (h : g.Typed) (hb : b < g.blocks.size) (line : Int) (n : Nat) :
    (g.addSlots b line n).Typed := by
  induction n generalizing g with
  | zero => exact h
  | succ n ih => exact ih (h.addSlot hb line) ((g.worksIn_addSlot b line).size_eq ▸ hb)

/-- Nothing flows into the phis that are made for entry slots. -/
theorem phi?_addSlots {p : Phi} {line : Int} {n : Nat}
    (h : ((g.addSlots b line n).definition v).phi? = some p) :
    (g.definition v).phi? = some p ∨ p = { slot := p.slot } := by
  induction n generalizing g with
  | zero => exact .inl h
  | succ n ih =>
    rcases ih h with hold | hnew
    · rw [definition_addSlot] at hold
      split at hold
      · cases hold
        exact .inr rfl
      · exact .inl hold
    · exact .inr hnew

/-- Nothing flows into new phis. -/
theorem Unfed.addSlots (h : g.Unfed) (b : BlockId) (line : Int) (n : Nat) :
    (g.addSlots b line n).Unfed := fun v p hp => (phi?_addSlots hp).elim (h v p) id

/-- In a graph with the same values and the same phis, these are in their slots. -/
theorem Slotted.of_same (h : g.Slotted) (hdefs : g'.definitions = g.definitions)
    (hphis : ∀ a, (g'.block a).phis = (g.block a).phis) : g'.Slotted := by
  intro a k v hv
  rw [hphis] at hv
  rw [hdefs, definition, hdefs]
  exact h a k v hv

/-- A graph with the same values is typed if its blocks have the same phis and code. -/
theorem Typed.of_same (h : g.Typed) (hdefs : g'.definitions = g.definitions)
    (hphis : ∀ a, (g'.block a).phis = (g.block a).phis)
    (hbody : ∀ a, (g'.block a).body = (g.block a).body)
    (hused : ∀ a, (g'.block a).used ≤ (g.block a).phis.size) : g'.Typed := by
  have hdef : ∀ v, g'.definition v = g.definition v := fun v => by
    rw [definition, hdefs, definition]
  refine ⟨h.slotted.of_same hdefs hphis, ?_, ?_, ?_, ?_⟩
  · intro a k v hv
    rw [hbody] at hv
    rw [hdefs, hdef]
    exact h.body a k v hv
  · intro a
    rw [hbody]
    exact h.ascending a
  · intro a
    rw [hphis]
    exact hused a
  · intro v hv
    rw [hdef, mem_code_iff, hphis, hbody, ← mem_code_iff]
    exact h.placed v (hdefs ▸ hv)

/-- A change that leaves the phis of its block alone leaves all phis alone. -/
theorem phis_modifyBlock {f : Block → Block} (hf : (f (g.block b)).phis = (g.block b).phis)
    (a : BlockId) : ((g.modifyBlock b f).block a).phis = (g.block a).phis := by
  rw [block_modifyBlock]
  split
  · rename_i hab
    rw [hab.1, hf]
  · rfl

/-- A change to a block that leaves its phis and code alone leaves a graph typed. -/
theorem Typed.modifyBlock (h : g.Typed) {f : Block → Block}
    (hphis : (f (g.block b)).phis = (g.block b).phis)
    (hbody : (f (g.block b)).body = (g.block b).body)
    (hused : (f (g.block b)).used ≤ (g.block b).phis.size) : (g.modifyBlock b f).Typed := by
  refine h.of_same rfl (phis_modifyBlock hphis) ?_ ?_
  · intro a
    rw [block_modifyBlock]
    split
    · rename_i hab
      rw [hab.1, hbody]
    · rfl
  · intro a
    rw [block_modifyBlock]
    split
    · rename_i hab
      rw [hab.1]
      exact hused
    · exact h.used_le a

/-- A look at the stack makes phis at most. -/
theorem Typed.peek (h : g.Typed) (hb : b < g.blocks.size) (line : Int) :
    (g.peek b line).2.Typed := by
  unfold Graph.peek
  split
  · exact h
  · exact h.addSlots hb line _

/-- An entry slot on top has its phi. -/
theorem used_lt_of_peek (hb : b < g.blocks.size) (line : Int)
    (hstack : ((g.peek b line).2.block b).stack = []) :
    ((g.peek b line).2.block b).used < ((g.peek b line).2.block b).phis.size := by
  rcases peek_cases hb line with ⟨u, rest, hcons, -, hblock⟩ | ⟨new, u, -, hsize, -, -, hblock⟩
  · rw [hblock, hcons] at hstack
    cases hstack
  · simp only [hblock, Array.size_append, hsize]
    omega

/-- An entry slot that is popped has its phi by then. -/
theorem Typed.pop (h : g.Typed) (hb : b < g.blocks.size) (line : Int) :
    (g.pop b line).2.Typed := by
  have hpeek := h.peek hb line
  rw [pop_eq]
  refine hpeek.modifyBlock (phis_dropTop _) (body_dropTop _) ?_
  cases hstack : ((g.peek b line).2.block b).stack with
  | nil =>
    rw [dropTop_of_nil hstack]
    exact used_lt_of_peek hb line hstack
  | cons u rest =>
    rw [dropTop_of_cons hstack]
    exact hpeek.used_le b

/-- What is emitted must not be a phi, as it goes to the body. -/
theorem Typed.emit (h : g.Typed) (hb : b < g.blocks.size) (line : Int) {e : Expr}
    (he : ∀ p, e ≠ .phi p) : (g.emit b line e).Typed := by
  have hblock := block_emit_self hb line e
  refine h.worksIn (g.worksIn_emit b line e) ?_ ?_ ?_ ?_ ?_
  · intro k v hv
    exact .inl (by rwa [hblock] at hv)
  · intro k v hv
    rw [hblock, Array.getElem?_push] at hv
    split at hv
    · cases hv
      rw [definition_emit, if_pos rfl]
      refine .inr ⟨by simp [Graph.emit, push, define], rfl, ?_⟩
      cases e with
      | phi p => exact absurd rfl (he p)
      | _ => rfl
    · exact .inl hv
  · rw [hblock, Array.toList_push, List.pairwise_append]
    refine ⟨h.ascending b, List.pairwise_singleton _ _, ?_⟩
    intro u hu v hv
    rw [List.mem_singleton] at hv
    obtain ⟨k, hk⟩ := List.mem_iff_getElem?.1 hu
    exact hv ▸ (h.body b k u (by simpa using hk)).1
  · rw [hblock]
    exact h.used_le b
  · intro v hv
    rcases Nat.lt_succ_iff_lt_or_eq.1 (count_addDefinition .. ▸ hv) with hold | rfl
    · exact .inl hold
    · rw [definition_emit, if_pos rfl, mem_code_iff, hblock]
      exact .inr ⟨rfl, .inr Array.mem_push_self⟩

/-- A look at the stack lets nothing flow into phis. -/
theorem Unfed.peek (h : g.Unfed) (b : BlockId) (line : Int) : (g.peek b line).2.Unfed := by
  unfold Graph.peek
  split
  · exact h
  · exact h.addSlots b line _

/-- Popping lets nothing flow into phis. -/
theorem Unfed.pop (h : g.Unfed) (b : BlockId) (line : Int) : (g.pop b line).2.Unfed := by
  rw [pop_eq]
  exact h.peek b line

/-- What is emitted must not be a phi, as something might flow into it. -/
theorem Unfed.emit (h : g.Unfed) (b : BlockId) (line : Int) {e : Expr} (he : ∀ p, e ≠ .phi p) :
    (g.emit b line e).Unfed := by
  intro v p hp
  rw [definition_emit] at hp
  split at hp
  · cases e with
    | phi q => exact absurd rfl (he q)
    | _ => cases hp
  · exact h v p hp

/-- Whether a graph came out of another one by work in one block that keeps phis and other values
apart. -/
structure Advances (b : BlockId) (g g' : Graph) : Prop extends WorksIn b g g' where
  typed : g.Typed → b < g.blocks.size → g'.Typed
  unfed : g.Unfed → g'.Unfed

theorem Advances.refl (b : BlockId) (g : Graph) : Advances b g g :=
  ⟨.refl b g, fun h _ => h, id⟩

/-- Work that keeps phis and other values apart may be done in parts. -/
theorem Advances.trans (h : Advances b g g') (h' : Advances b g' g'') : Advances b g g'' where
  toWorksIn := h.toWorksIn.trans h'.toWorksIn
  typed hg hb := h'.typed (h.typed hg hb) (h.size_eq ▸ hb)
  unfed hg := h'.unfed (h.unfed hg)

/-- A look at the stack keeps phis and other values apart. -/
theorem advances_peek (g : Graph) (b : BlockId) (line : Int) : Advances b g (g.peek b line).2 :=
  ⟨g.worksIn_peek b line, fun h hb => h.peek hb line, fun h => h.peek b line⟩

/-- Popping keeps phis and other values apart. -/
theorem advances_pop (g : Graph) (b : BlockId) (line : Int) : Advances b g (g.pop b line).2 :=
  ⟨g.worksIn_pop b line, fun h hb => h.pop hb line, fun h => h.pop b line⟩

/-- What is on top of the stack of a block, which is taken from there or not. -/
def top (g : Graph) (pops : Bool) (b : BlockId) (line : Int) : Operand × Graph :=
  if pops then g.pop b line else g.peek b line

/-- Taking the top of the stack, or looking at it, keeps phis and other values apart. -/
theorem advances_top (g : Graph) (pops : Bool) (b : BlockId) (line : Int) :
    Advances b g (g.top pops b line).2 := by
  cases pops with
  | true => exact g.advances_pop b line
  | false => exact g.advances_peek b line

/-- Emitting keeps phis and other values apart, unless a phi is emitted. -/
theorem advances_emit (g : Graph) (b : BlockId) (line : Int) {e : Expr} (he : ∀ p, e ≠ .phi p) :
    Advances b g (g.emit b line e) :=
  ⟨g.worksIn_emit b line e, fun h hb => h.emit hb line he, fun h => h.emit b line he⟩

end StackLift.Graph
