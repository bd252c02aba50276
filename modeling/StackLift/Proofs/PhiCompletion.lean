/-
# What flows into phis

While phis are completed, blocks get more of them, and nothing else changes.  What flows into a
complete phi from a predecessor is the value in the slot with which the predecessor is left.

* `Graph.exit?` : the value in a slot with which a block is left;
* `Graph.Demands` : the slots that a block or one behind it takes something from;
* `Graph.PhisOnly` : what is left alone while phis are completed;
* `Graph.Completable` : what is needed of a graph so that its phis can be completed;
* `Graph.Filling` : what holds meanwhile;
* `Graph.Completable.completePhis_ok` : what holds in the end;
* `Graph.Feeding` : the same of a graph that has no phis besides.
-/
import Mathlib.Data.List.Forall2
import StackLift.PhiCompletion
import StackLift.Proofs.Stepping

namespace StackLift

namespace Graph

variable {g g' g₀ : Graph} {a b : BlockId} {v : ValueId} {depth : Nat}

/-! ## What a block is left with -/

/-- The value `depth` below the top of the stack that a block is left with, if it is there or the
block has a phi for it. -/
def exit? (g : Graph) (b : BlockId) (depth : Nat) : Option Operand :=
  let x := g.block b
  if depth < x.stack.length then x.stack[depth]?
  else x.phis[x.used + depth - x.stack.length]?.map some

/-- More phis of a block do not change what it is left with. -/
theorem exit?_mono {phis : Array ValueId} {x : Operand}
    (hblock : g'.block b = { g.block b with phis })
    (hphis : ∀ (k : Nat) v, (g.block b).phis[k]? = some v → (g'.block b).phis[k]? = some v)
    (h : g.exit? b depth = some x) : g'.exit? b depth = some x := by
  rw [hblock] at hphis
  simp only [exit?, hblock] at h ⊢
  split at h
  · rename_i hlt
    rw [if_pos hlt, h]
  · rename_i hlt
    obtain ⟨v, hv, rfl⟩ := Option.map_eq_some_iff.1 h
    rw [if_neg hlt, hphis _ v hv, Option.map_some]

/-- What a block is left with is on its stack or in one of its entry slots. -/
theorem lt_of_exit?_eq_some {x : Operand} (h : g.exit? b depth = some x) :
    depth < (g.block b).stack.length + ((g.block b).phis.size - (g.block b).used) := by
  simp only [exit?] at h
  split at h
  · omega
  · obtain ⟨v, hv, -⟩ := Option.map_eq_some_iff.1 h
    have := (Array.getElem?_eq_some_iff.1 hv).1
    omega

/-- Whether a value is the one that flows in from a predecessor by the slot `depth`. -/
def Gives (g : Graph) (depth : Nat) (b : BlockId) (i : Incoming) : Prop :=
  i.block = b ∧ g.exit? b depth = some i.value

theorem Gives.mono {i : Incoming} (h : g.Gives depth b i)
    (hblock : ∀ a, ∃ phis, g'.block a = { g.block a with phis })
    (hphis : ∀ a (k : Nat) v, (g.block a).phis[k]? = some v → (g'.block a).phis[k]? = some v) :
    g'.Gives depth b i := by
  obtain ⟨phis, hb⟩ := hblock b
  exact ⟨h.1, exit?_mono hb (hphis b) h.2⟩

/-- Only the phis of blocks change where an entry slot is reached. -/
theorem block_reach (hb : b < g.blocks.size) (line : Int) (depth : Nat) (a : BlockId) :
    ∃ phis, (g.reach b line depth).block a = { g.block a with phis } := by
  by_cases ha : a = b
  · obtain ⟨new, -, hself⟩ := block_reach_self hb line depth
    subst ha
    exact ⟨_, hself⟩
  · exact ⟨_, (g.worksIn_reach b line depth).others a ha⟩

theorem exitSlot_of_lt (h : depth < (g.block b).stack.length) (line : Int) :
    g.exitSlot b line depth = (((g.block b).stack[depth], false), g) := dif_pos h

/-- Where the stack of a block is too shallow, an entry slot is asked for. -/
theorem exitSlot_of_ge (h : (g.block b).stack.length ≤ depth) (line : Int) :
    g.exitSlot b line depth =
      let slot := (g.block b).used + depth - (g.block b).stack.length
      ((some (g.entrySlot b line slot).1, true), g.reach b line slot) :=
  dif_neg (Nat.not_lt_of_le h)

theorem reach_of_lt (h : depth < (g.block b).phis.size) (line : Int) :
    g.reach b line depth = g := by
  rw [reach, Nat.sub_eq_zero_of_le h]
  rfl

/-- Asking for a slot that is there changes nothing. -/
theorem exitSlot_of_exit? {x : Operand} (h : g.exit? b depth = some x) (line : Int) :
    (g.exitSlot b line depth).1.1 = x ∧ (g.exitSlot b line depth).2 = g := by
  simp only [exit?] at h
  rcases Nat.lt_or_ge depth (g.block b).stack.length with hlt | hge
  · rw [if_pos hlt, List.getElem?_eq_getElem hlt] at h
    rw [exitSlot_of_lt hlt]
    exact ⟨Option.some.inj h, rfl⟩
  · rw [if_neg (Nat.not_lt_of_le hge)] at h
    obtain ⟨v, hv, rfl⟩ := Option.map_eq_some_iff.1 h
    have hslot := reach_of_lt (Array.getElem?_eq_some_iff.1 hv).1 line
    rw [exitSlot_of_ge hge]
    simp only [entrySlot, hslot, Array.getD_eq_getD_getElem?, hv, Option.getD_some, and_self]

/-- A slot that was asked for is there. -/
theorem exit?_exitSlot (hb : b < g.blocks.size) (line : Int) (depth : Nat) :
    (g.exitSlot b line depth).2.exit? b depth = some (g.exitSlot b line depth).1.1 := by
  rcases Nat.lt_or_ge depth (g.block b).stack.length with hlt | hge
  · rw [exitSlot_of_lt hlt]
    simp [exit?, hlt]
  · rw [exitSlot_of_ge hge]
    have hslot := getElem?_entrySlot hb line ((g.block b).used + depth - (g.block b).stack.length)
    obtain ⟨new, -, hblock⟩ :=
      block_reach_self hb line ((g.block b).used + depth - (g.block b).stack.length)
    simp only [entrySlot, hblock] at hslot
    simp only [exit?, entrySlot, hblock, if_neg (Nat.not_lt_of_le hge), hslot, Option.map_some]

/-- Asking for a slot leaves everything as it is, but for the phis of blocks. -/
theorem exitSlot_frame (hb : b < g.blocks.size) (line : Int) (depth : Nat) :
    (∀ a, ∃ phis, (g.exitSlot b line depth).2.block a = { g.block a with phis }) ∧
      g.Extends (g.exitSlot b line depth).2 := by
  rcases Nat.lt_or_ge depth (g.block b).stack.length with hlt | hge
  · rw [exitSlot_of_lt hlt]
    exact ⟨fun a => ⟨_, rfl⟩, .refl g⟩
  · rw [exitSlot_of_ge hge]
    exact ⟨block_reach hb line _, (g.worksIn_reach b line _).toExtends⟩

/-- Only a block that a value passes through gets phis where a slot is asked for. -/
theorem phis_exitSlot {line : Int} {k : Nat} {u : ValueId}
    (h : ((g.exitSlot b line depth).2.block a).phis[k]? = some u) :
    (g.exitSlot b line depth).1.2 = true ∧ a = b ∨ (g.block a).phis[k]? = some u := by
  rcases Nat.lt_or_ge depth (g.block b).stack.length with hlt | hge
  · rw [exitSlot_of_lt hlt] at h
    exact .inr h
  · rw [exitSlot_of_ge hge] at h ⊢
    by_cases hab : a = b
    · exact .inl ⟨rfl, hab⟩
    · rw [(g.worksIn_reach b line _).others a hab] at h
      exact .inr h

/-! ## Demands -/

/-- Whether the way through a block and those behind it takes something from the first `n` entry
slots: the block does so itself, or a block behind it does and finds too little on its stack. -/
inductive Demands (g : Graph) : BlockId → Nat → Prop
  | own {b : BlockId} {n : Nat} (h : n ≤ (g.block b).phis.size) : Demands g b n
  | through {b a : BlockId} {m n : Nat} (h : Demands g a m) (ha : a ∈ (g.block b).succs)
      (hlt : (g.block b).stack.length < m)
      (hn : n + (g.block b).stack.length ≤ (g.block b).used + m) : Demands g b n

theorem Demands.mono {m n : Nat} (h : g.Demands b m) (hle : n ≤ m) : g.Demands b n := by
  cases h with
  | own h => exact .own (Nat.le_trans hle h)
  | through h ha hlt hn => exact .through h ha hlt (by omega)

/-- Demands are made by blocks and their edges. -/
theorem Demands.of_blocks_eq {n : Nat} (hblocks : g'.blocks = g.blocks) (h : g'.Demands b n) :
    g.Demands b n := by
  have hblock : ∀ a, g'.block a = g.block a := fun a => by rw [block, hblocks, block]
  induction h with
  | own h => exact .own (by rwa [← hblock])
  | through _ ha hlt hn ih =>
    rw [hblock] at ha hlt hn
    exact .through ih ha hlt hn

/-! ## Phis -/

theorem lt_of_phi?_eq_some {p : Phi} (h : (g.definition v).phi? = some p) :
    v < g.definitions.size := by
  refine Nat.lt_of_not_le fun hle => ?_
  rw [definition_of_size_le hle] at h
  cases h

theorem expr_of_phi?_eq_some {p : Phi} (h : (g.definition v).phi? = some p) :
    (g.definition v).expr = some (.phi p) := by
  unfold Definition.phi? at h
  split at h
  · cases h
    assumption
  · cases h

/-- Changing a phi changes that one. -/
theorem definition_modifyPhi_self {p : Phi} (h : (g.definition v).phi? = some p) (f : Phi → Phi) :
    (g.modifyPhi v f).definition v = { g.definition v with expr := some (.phi (f p)) } := by
  have hlt := lt_of_phi?_eq_some h
  have hexpr := expr_of_phi?_eq_some h
  have hdef : g.definitions[v]? = some (g.definition v) := by
    rw [definition, Array.getD_eq_getD_getElem?, Array.getElem?_eq_getElem hlt, Option.getD_some]
  rw [definition, modifyPhi, Array.getD_eq_getD_getElem?, Array.getElem?_modify, if_pos rfl, hdef]
  simp only [Option.map_some, Option.getD_some, hexpr]

/-- Changing a phi changes no other value. -/
theorem definition_modifyPhi_of_ne {u : ValueId} (h : u ≠ v) (f : Phi → Phi) :
    (g.modifyPhi v f).definition u = g.definition u := by
  simp only [definition, modifyPhi, Array.getD_eq_getD_getElem?, Array.getElem?_modify,
    if_neg h.symm]

/-- Changing a phi leaves all values where they are. -/
theorem place_modifyPhi (g : Graph) (v : ValueId) (f : Phi → Phi) (u : ValueId) :
    ((g.modifyPhi v f).definition u).block = (g.definition u).block ∧
      ((g.modifyPhi v f).definition u).line = (g.definition u).line := by
  by_cases hne : u = v
  · subst hne
    rw [definition, modifyPhi, Array.getD_eq_getD_getElem?, Array.getElem?_modify, if_pos rfl,
      definition, Array.getD_eq_getD_getElem?]
    cases g.definitions[u]? with
    | none => exact ⟨rfl, rfl⟩
    | some d =>
      rw [Option.map_some, Option.getD_some, Option.getD_some]
      split <;> exact ⟨rfl, rfl⟩
  · rw [definition_modifyPhi_of_ne hne]
    exact ⟨rfl, rfl⟩

theorem size_modifyPhi (g : Graph) (v : ValueId) (f : Phi → Phi) :
    (g.modifyPhi v f).definitions.size = g.definitions.size := by
  simp [modifyPhi]

/-- A phi can be changed, but for its slot. -/
theorem Slotted.modifyPhi {p : Phi} (h : g.Slotted) (hp : (g.definition v).phi? = some p)
    {f : Phi → Phi} (hslot : (f p).slot = p.slot) : (g.modifyPhi v f).Slotted := by
  intro b k u hu
  obtain ⟨hlt, hblock, q, hq, hk⟩ := h b k u hu
  rw [size_modifyPhi]
  by_cases hne : u = v
  · subst hne
    obtain rfl : q = p := Option.some.inj (hq.symm.trans hp)
    rw [definition_modifyPhi_self hp]
    exact ⟨hlt, hblock, f q, rfl, hslot.trans hk⟩
  · rw [definition_modifyPhi_of_ne hne]
    exact ⟨hlt, hblock, q, hq, hk⟩

theorem Typed.modifyPhi {p : Phi} (h : g.Typed) (hp : (g.definition v).phi? = some p)
    {f : Phi → Phi} (hslot : (f p).slot = p.slot) : (g.modifyPhi v f).Typed := by
  refine ⟨h.slotted.modifyPhi hp hslot, ?_, h.ascending, h.used_le, ?_⟩
  · intro b k u hu
    obtain ⟨hlt, hblock, hnone⟩ := h.body b k u hu
    have hne : u ≠ v := by
      rintro rfl
      rw [hnone] at hp
      cases hp
    rw [size_modifyPhi, definition_modifyPhi_of_ne hne]
    exact ⟨hlt, hblock, hnone⟩
  · intro u hu
    rw [size_modifyPhi] at hu
    rw [(g.place_modifyPhi v f u).1]
    exact h.placed u hu

/-! ## Lines -/

/-- Whether the lines of all values and of all terminators satisfy a condition. -/
structure LinesIn (P : Int → Prop) (g : Graph) : Prop where
  value : ∀ v, P (g.definition v).line
  terminator : ∀ b, P (g.block b).terminatorLine

namespace LinesIn

variable {P : Int → Prop}

theorem lineOf (h : g.LinesIn P) (b : BlockId) : P (g.lineOf b) := by
  unfold Graph.lineOf
  dsimp only
  split
  · exact h.value _
  · exact h.terminator b

/-- A phi for an entry slot stands on a line of its own. -/
theorem addSlot (h : g.LinesIn P) (b : BlockId) {line : Int} (hline : P line) :
    (g.addSlot b line).LinesIn P := by
  constructor
  · intro v
    rw [definition_addSlot]
    split
    · exact hline
    · exact h.value v
  · intro a
    by_cases hab : a = b
    · obtain ⟨phis, body, stack, used, hblock⟩ := (g.worksIn_addSlot b line).fields
      rw [hab, hblock]
      exact h.terminator b
    · rw [(g.worksIn_addSlot b line).others a hab]
      exact h.terminator a

theorem addSlots (h : g.LinesIn P) (b : BlockId) {line : Int} (hline : P line) (n : Nat) :
    (g.addSlots b line n).LinesIn P := by
  induction n generalizing g with
  | zero => exact h
  | succ n ih => exact ih (h.addSlot b hline)

theorem modifyPhi (h : g.LinesIn P) (v : ValueId) (f : Phi → Phi) :
    (g.modifyPhi v f).LinesIn P := by
  refine ⟨fun u => ?_, h.terminator⟩
  rw [(g.place_modifyPhi v f u).2]
  exact h.value u

end LinesIn

/-! ## What flows into phis -/

/-- What has flown into the phi of a slot: everything once it is complete, and nothing before. -/
def Flows (g : Graph) (b : BlockId) (p : Phi) : Prop :=
  if p.complete then
    (g.block b).preds ≠ [] ∧ List.Forall₂ (g.Gives p.slot.toNat) (g.block b).preds p.incomings
  else p.incomings = []

/-- More phis of blocks do not change what has flown. -/
theorem Flows.mono {p : Phi} (h : g.Flows b p)
    (hblock : ∀ a, ∃ phis, g'.block a = { g.block a with phis })
    (hphis : ∀ a (k : Nat) v, (g.block a).phis[k]? = some v → (g'.block a).phis[k]? = some v) :
    g'.Flows b p := by
  have hpreds : (g'.block b).preds = (g.block b).preds := by
    obtain ⟨phis, hb⟩ := hblock b
    rw [hb]
  rw [Flows] at h ⊢
  rw [hpreds]
  split at h
  · rename_i hcomplete
    rw [if_pos hcomplete]
    exact ⟨h.1, h.2.imp fun a i hi => hi.mono hblock hphis⟩
  · rename_i hcomplete
    rw [if_neg hcomplete, h]

/-! ## While phis are completed -/

/-- Whether a graph came out of another one by work on the phis of its blocks: these may have got
more of them, and what flows into them may have changed. -/
structure PhisOnly (g g' : Graph) : Prop where
  live_eq : g'.live = g.live
  size_eq : g'.blocks.size = g.blocks.size
  fields : ∀ b, ∃ phis, g'.block b = { g.block b with phis }
  removed_eq : ∀ b, b ∉ g.live → g'.block b = g.block b
  phis_mono : ∀ b (k : Nat) v, (g.block b).phis[k]? = some v → (g'.block b).phis[k]? = some v
  phis_new : ∀ b (k : Nat) v, (g'.block b).phis[k]? = some v →
    (g.block b).phis[k]? = some v ∨ g.definitions.size ≤ v
  count_le : g.definitions.size ≤ g'.definitions.size
  others_eq : ∀ v < g.definitions.size, (∀ b ∈ g.live, v ∉ (g.block b).phis) →
    g'.definition v = g.definition v

namespace PhisOnly

variable {g'' : Graph}

theorem refl (g : Graph) : g.PhisOnly g :=
  ⟨rfl, rfl, fun _ => ⟨_, rfl⟩, fun _ _ => rfl, fun _ _ _ hv => hv, fun _ _ _ => .inl,
    Nat.le_refl _, fun _ _ _ => rfl⟩

theorem trans (h : g.PhisOnly g') (h' : g'.PhisOnly g'') : g.PhisOnly g'' where
  live_eq := h'.live_eq.trans h.live_eq
  size_eq := h'.size_eq.trans h.size_eq
  fields b := by
    obtain ⟨phis, hb⟩ := h.fields b
    obtain ⟨phis', hb'⟩ := h'.fields b
    exact ⟨phis', by rw [hb', hb]⟩
  removed_eq b hb := by rw [h'.removed_eq b (h.live_eq ▸ hb), h.removed_eq b hb]
  phis_mono b k v hv := h'.phis_mono b k v (h.phis_mono b k v hv)
  phis_new b k v hv := by
    rcases h'.phis_new b k v hv with hold | hnew
    · exact h.phis_new b k v hold
    · exact .inr (Nat.le_trans h.count_le hnew)
  count_le := Nat.le_trans h.count_le h'.count_le
  others_eq v hv hphi := by
    rw [h'.others_eq v (Nat.lt_of_lt_of_le hv h.count_le), h.others_eq v hv hphi]
    intro b hb hmem
    obtain ⟨k, hk⟩ := Array.mem_iff_getElem?.1 hmem
    rcases h.phis_new b k v hk with hold | hnew
    · exact hphi b (h.live_eq ▸ hb) (Array.mem_of_getElem? hold)
    · exact absurd hv (Nat.not_lt_of_le hnew)

theorem preds_eq (h : g.PhisOnly g') (b : BlockId) : (g'.block b).preds = (g.block b).preds := by
  obtain ⟨phis, hblock⟩ := h.fields b
  rw [hblock]

/-- Reaching an entry slot of a block of the graph makes phis only. -/
theorem reach (hb : b < g.blocks.size) (hlive : b ∈ g.live) (line : Int) (depth : Nat) :
    g.PhisOnly (g.reach b line depth) := by
  have hwork := g.worksIn_reach b line depth
  refine ⟨hwork.live_eq, hwork.size_eq, block_reach hb line depth, ?_,
    hwork.toExtends.phis_mono, fun _ _ _ => phis_addSlots, hwork.count_le, ?_⟩
  · exact fun a ha => hwork.others a fun hab => ha (hab ▸ hlive)
  · exact fun v hv _ => hwork.definition_eq v hv

/-- What flows into the phi of a slot of a block can be changed. -/
theorem modifyPhi (hlive : b ∈ g.live) (hv : (g.block b).phis[depth]? = some v) (f : Phi → Phi) :
    g.PhisOnly (g.modifyPhi v f) := by
  refine ⟨rfl, rfl, fun _ => ⟨_, rfl⟩, fun _ _ => rfl, fun _ _ _ hu => hu, fun _ _ _ => .inl,
    Nat.le_of_eq (g.size_modifyPhi v f).symm, ?_⟩
  intro u _ hphi
  refine definition_modifyPhi_of_ne ?_ f
  rintro rfl
  exact hphi b hlive (Array.mem_of_getElem? hv)

end PhisOnly

/-- Whether a relation between blocks and numbers of entry slots holds of the slots that blocks have,
and is passed on from a block to a predecessor that does not push as much. -/
structure PassedOn (g : Graph) (R : BlockId → Nat → Prop) : Prop where
  own : ∀ b, R b (g.block b).phis.size
  mono : ∀ b m n, R b m → n ≤ m → R b n
  through : ∀ b ∈ g.live, ∀ a ∈ (g.block b).preds, ∀ m, R b m →
    (g.block a).stack.length < m → R a ((g.block a).used + m - (g.block a).stack.length)

/-- What is needed of a graph so that its phis can be completed. -/
structure Completable (g : Graph) : Prop where
  slotted : g.Slotted
  lt_size : ∀ b ∈ g.live, b < g.blocks.size
  preds_live : ∀ b ∈ g.live, ∀ a ∈ (g.block b).preds, a ∈ g.live
  preds_nodup : ∀ b ∈ g.live, (g.block b).preds.Nodup
  settled : ∀ b ∈ g.live, ∀ (k : Nat) v p, (g.block b).phis[k]? = some v →
    (g.definition v).phi? = some p → g.Flows b p

/-- What holds while the phis of the graph `g₀` are completed.  Nothing is said about what flows
into the phi `now`, which is being completed. -/
structure Filling (g₀ : Graph) (now : Option ValueId) (g : Graph) : Prop
    extends PhisOnly g₀ g where
  slotted : g.Slotted
  settled : ∀ b ∈ g₀.live, ∀ (k : Nat) v p, (g.block b).phis[k]? = some v → now ≠ some v →
    (g.definition v).phi? = some p → g.Flows b p
  passed : ∀ R, g₀.PassedOn R → ∀ b, R b (g.block b).phis.size
  keeps_typed : g₀.Typed → g.Typed
  lines : ∀ P, g₀.LinesIn P → g.LinesIn P

namespace Filling

/-- In the beginning nothing has changed. -/
theorem refl (h : g.Completable) : Filling g none g :=
  ⟨.refl g, h.slotted, fun b hb k v p hv _ hp => h.settled b hb k v p hv hp, fun _ hR => hR.own, id,
    fun _ hP => hP⟩

variable {now : Option ValueId}

/-- A block of the graph can be made to have the entry slots that are passed on to it. -/
theorem reach (h : Filling g₀ now g) {line : Int} (hline : ∀ P, g.LinesIn P → P line)
    (hb : b < g.blocks.size) (hlive : b ∈ g₀.live)
    (hpassed : ∀ R, g₀.PassedOn R → R b (depth + 1)) : Filling g₀ now (g.reach b line depth) := by
  have hwork := g.worksIn_reach b line depth
  obtain ⟨new, hsize, hself⟩ := block_reach_self hb line depth
  have hblock := block_reach hb line depth
  refine ⟨h.toPhisOnly.trans (.reach hb (h.live_eq ▸ hlive) line depth),
    h.slotted.addSlots b line _, ?_, ?_, fun h₀ => (h.keeps_typed h₀).addSlots hb line _,
    fun P hP => (h.lines P hP).addSlots b (hline P (h.lines P hP)) _⟩
  · intro a ha k v p hv hnow hp
    rcases phis_addSlots hv with hold | hnew
    · rw [hwork.definition_eq v (h.slotted a k v hold).1] at hp
      exact (h.settled a ha k v p hold hnow hp).mono hblock hwork.toExtends.phis_mono
    · -- nothing flows into a new phi
      rcases phi?_addSlots hp with hold | hfresh
      · exact absurd (lt_of_phi?_eq_some hold) (Nat.not_lt_of_le hnew)
      · rw [Flows, hfresh]
        simp
  · intro R hR a
    by_cases ha : a = b
    · subst ha
      rw [hself, Array.size_append, hsize]
      rcases Nat.le_total (depth + 1) (g.block a).phis.size with hle | hle
      · rw [Nat.sub_eq_zero_of_le hle]
        exact h.passed R hR a
      · rw [Nat.add_sub_cancel' hle]
        exact hpassed R hR
    · rw [hwork.others a ha]
      exact h.passed R hR a

/-- The phi that is being completed can be changed, but for its slot. -/
theorem modifyPhi {p : Phi} (h : Filling g₀ now g) (hlive : b ∈ g₀.live)
    (hv : (g.block b).phis[depth]? = some v) (hp : (g.definition v).phi? = some p)
    {f : Phi → Phi} (hslot : (f p).slot = p.slot) (hnow : now = some v) {now' : Option ValueId}
    (hflows : now' = some v ∨ now' = none ∧ g.Flows b (f p)) :
    Filling g₀ now' (g.modifyPhi v f) := by
  have hself := definition_modifyPhi_self hp f
  refine ⟨h.toPhisOnly.trans (.modifyPhi (h.live_eq ▸ hlive) hv f), h.slotted.modifyPhi hp hslot,
    ?_, h.passed, fun h₀ => (h.keeps_typed h₀).modifyPhi hp hslot,
    fun P hP => (h.lines P hP).modifyPhi v f⟩
  intro a ha k u q hu hnow' hq
  by_cases hne : u = v
  · subst hne
    rw [hself] at hq
    cases hq
    -- a phi is one of a single block
    obtain rfl : a = b := (h.slotted a k u hu).2.1.symm.trans (h.slotted b depth u hv).2.1
    exact (hflows.resolve_left hnow').2
  · rw [definition_modifyPhi_of_ne hne] at hq
    exact h.settled a ha k u q hu (fun heq => hne (Option.some.inj (heq.symm.trans hnow))) hq

/-- A predecessor can be asked for the slot of a phi. -/
theorem exitSlot (h : Filling g₀ now g) (h₀ : g₀.Completable) {line : Int}
    (hline : ∀ P, g.LinesIn P → P line) (hb : b ∈ g₀.live)
    (hv : (g.block b).phis[depth]? = some v) (ha : a ∈ (g₀.block b).preds) :
    Filling g₀ now (g.exitSlot a line depth).2 := by
  have halive := h₀.preds_live b hb a ha
  rcases Nat.lt_or_ge depth (g.block a).stack.length with hlt | hge
  · rw [exitSlot_of_lt hlt]
    exact h
  · -- what holds of the slots of the block is passed on to its predecessor
    rw [exitSlot_of_ge hge]
    refine h.reach hline (h.size_eq ▸ h₀.lt_size a halive) halive fun R hR => ?_
    obtain ⟨phis, hblock⟩ := h.fields a
    rw [hblock] at hge ⊢
    have hslot : R b (depth + 1) :=
      hR.mono b _ _ (h.passed R hR b) (Array.getElem?_eq_some_iff.1 hv).1
    have hthrough := hR.through b hb a ha _ hslot (Nat.lt_succ_of_le hge)
    rwa [← Nat.add_assoc, Nat.sub_add_comm (by dsimp only at hge; omega)] at hthrough

end Filling

end Graph

/-- Whether the phi of a slot has got its values from some predecessors. -/
def Graph.FedFrom (g : Graph) (b : BlockId) (slot : Nat) (v : ValueId) (fed : List BlockId) :
    Prop :=
  (g.block b).phis[slot]? = some v ∧
    ∃ p, (g.definition v).phi? = some p ∧ List.Forall₂ (g.Gives slot) fed p.incomings

/-- Values that have flown stay while other blocks get phis. -/
theorem Graph.FedFrom.mono {g g' : Graph} {b : BlockId} {slot : Nat} {v : ValueId}
    {fed : List BlockId} (h : g.FedFrom b slot v fed) (hext : g.Extends g')
    (hblock : ∀ a, ∃ phis, g'.block a = { g.block a with phis }) : g'.FedFrom b slot v fed := by
  obtain ⟨hv, p, hp, hfed⟩ := h
  refine ⟨hext.phis_mono b slot v hv, p, ?_, hfed.imp fun a i hi => hi.mono hblock hext.phis_mono⟩
  rw [hext.definition_eq v (lt_of_phi?_eq_some hp), hp]

/-- Another value flows into a phi. -/
theorem Graph.FedFrom.putIncoming {g : Graph} {a b : BlockId} {slot : Nat} {v : ValueId}
    {fed : List BlockId} {x : Operand} (h : g.FedFrom b slot v fed)
    (hx : g.exit? a slot = some x) : (g.putIncoming v a x).FedFrom b slot v (fed ++ [a]) := by
  obtain ⟨hv, p, hp, hfed⟩ := h
  have hself := definition_modifyPhi_self hp fun p =>
    { p with incomings := p.incomings ++ [⟨a, x⟩] }
  refine ⟨hv, _, congrArg Definition.phi? hself, ?_⟩
  exact List.rel_append hfed (.cons ⟨rfl, hx⟩ .nil)

/-! ## Steps -/

namespace PhiCompletion

variable {g₀ : Graph} {v : ValueId} {b : BlockId} {s s' : State}

/-- What holds between the steps: the queue holds phis of blocks, all that are not complete, and
only phis are told about. -/
structure Completing (g₀ : Graph) (now : Option ValueId) (s : State) : Prop where
  filling : g₀.Filling now s.graph
  queued : ∀ v ∈ s.queue.toList, ∃ b ∈ g₀.live, ∃ k : Nat, (s.graph.block b).phis[k]? = some v
  waiting : ∀ b ∈ g₀.live, ∀ (k : Nat) v, (s.graph.block b).phis[k]? = some v → now = some v ∨
    v ∈ s.queue.toList ∨ ∃ p, (s.graph.definition v).phi? = some p ∧ p.complete = true
  quiet : ∀ e ∈ s.events, e.step? = none

theorem feed_ok {slot : Int} {pred : BlockId} (h : feed v slot pred s = .ok () s') :
    let r := s.graph.exitSlot pred (s.graph.lineOf pred) slot.toNat
    s'.graph = r.2.putIncoming v pred r.1.1 ∧
      s'.queue = (if r.1.2 then s.queue.add (s'.graph.block pred).phis.toList else s.queue) ∧
      ∃ e, e.step? = none ∧ s'.events = s.events.push e := by
  simp only [feed] at h
  unfold Graph.exitSlotAt at h
  by_cases hneg : slot < 0
  · rw [if_pos hneg] at h
    cases h
  · rw [if_neg hneg] at h
    dsimp only at h
    split at h
    · cases h
    · cases h
      exact ⟨rfl, rfl, _, rfl, rfl⟩

theorem complete_ok {maxDepth : Int} {p : Phi} (h : complete maxDepth v p s = .ok () s') :
    let preds := (s.graph.block (s.graph.definition v).block).preds
    preds ≠ [] ∧ ∃ s₁, preds.forM (feed v p.slot) s = .ok () s₁ ∧
      s' = { s₁ with graph := s₁.graph.markComplete v } := by
  obtain ⟨s₀, s₁, hget, h⟩ := bind_eq_ok.1 h
  cases hget
  dsimp only at h ⊢
  by_cases hempty : (s.graph.block (s.graph.definition v).block).preds.isEmpty = true
  · rw [if_pos hempty] at h
    cases h
  · rw [if_neg hempty] at h
    refine ⟨fun hnil => hempty (List.isEmpty_iff.2 hnil), ?_⟩
    by_cases hdeep : maxDepth ≤ p.slot
    · rw [if_pos hdeep] at h
      cases h
    · rw [if_neg hdeep] at h
      obtain ⟨⟨⟩, s₁, hfeed, h⟩ := bind_eq_ok.1 h
      cases h
      exact ⟨s₁, hfeed, rfl⟩

section

variable (h₀ : g₀.Completable) (hb : b ∈ g₀.live)
include h₀ hb

/-- A step gives the phi that is being completed one more value. -/
theorem feed_completing {slot : Nat} {pred : BlockId} {fed : List BlockId}
    (h : Completing g₀ (some v) s) (hfed : s.graph.FedFrom b slot v fed)
    (hpred : pred ∈ (g₀.block b).preds) (hok : feed v slot pred s = .ok () s') :
    Completing g₀ (some v) s' ∧ s'.graph.FedFrom b slot v (fed ++ [pred]) := by
  obtain ⟨hgraph, hqueue, e, he, hevents⟩ := feed_ok hok
  rw [Int.toNat_natCast] at hgraph hqueue
  have hlive := h₀.preds_live b hb pred hpred
  have hlt : pred < s.graph.blocks.size := h.filling.size_eq ▸ h₀.lt_size pred hlive
  obtain ⟨hblock, hext⟩ := Graph.exitSlot_frame hlt (s.graph.lineOf pred) slot
  have hfilling := h.filling.exitSlot h₀ (fun P hP => hP.lineOf pred) hb hfed.1 hpred
  have hfed' := hfed.mono hext hblock
  obtain ⟨p, hp, -⟩ := hfed'.2
  have hphis : ∀ a (k : Nat) u, (s.graph.block a).phis[k]? = some u →
      (s'.graph.block a).phis[k]? = some u := by
    rw [hgraph]
    exact hext.phis_mono
  have hmem : ∀ u, u ∈ s'.queue.toList ↔ u ∈ s.queue.toList ∨
      (s.graph.exitSlot pred (s.graph.lineOf pred) slot).1.2 = true ∧
        u ∈ (s'.graph.block pred).phis.toList := by
    intro u
    rw [hqueue]
    split
    · rename_i hthrough
      rw [Queue.toList_add, List.mem_append, and_iff_right hthrough]
    · rename_i hthrough
      rw [or_iff_left fun hboth => hthrough hboth.1]
  refine ⟨⟨?_, ?_, ?_, ?_⟩, ?_⟩
  · rw [hgraph]
    exact hfilling.modifyPhi hb hfed'.1 hp rfl rfl (.inl rfl)
  · intro u hu
    rcases (hmem u).1 hu with hu | ⟨-, hu⟩
    · obtain ⟨a, ha, k, hk⟩ := h.queued u hu
      exact ⟨a, ha, k, hphis a k u hk⟩
    · obtain ⟨k, hk⟩ := List.mem_iff_getElem?.1 hu
      exact ⟨pred, hlive, k, by simpa using hk⟩
  · intro a ha k u hu
    have hu' := hu
    rw [hgraph] at hu'
    rcases Graph.phis_exitSlot hu' with ⟨hthrough, rfl⟩ | hold
    · -- the predecessor may have got phis, and all of its phis are put into the queue
      exact .inr (.inl ((hmem u).2 (.inr ⟨hthrough, Array.mem_toList_iff.2
        (Array.mem_of_getElem? hu)⟩)))
    · rcases h.waiting a ha k u hold with hnow | hqueued | ⟨q, hq, hcomplete⟩
      · exact .inl hnow
      · exact .inr (.inl ((hmem u).2 (.inl hqueued)))
      · by_cases hne : u = v
        · exact .inl (congrArg some hne.symm)
        · refine .inr (.inr ⟨q, ?_, hcomplete⟩)
          rw [hgraph, Graph.putIncoming, Graph.definition_modifyPhi_of_ne hne,
            hext.definition_eq u (Graph.lt_of_phi?_eq_some hq), hq]
  · intro e' he'
    rw [hevents, Array.mem_push] at he'
    rcases he' with he' | rfl
    · exact h.quiet e' he'
    · exact he
  · rw [hgraph]
    exact hfed'.putIncoming (Graph.exit?_exitSlot hlt _ _)

/-- The phi that is being completed gets a value from each predecessor. -/
theorem forM_feed_completing {slot : Nat} {preds fed : List BlockId}
    (h : Completing g₀ (some v) s) (hfed : s.graph.FedFrom b slot v fed)
    (hpreds : ∀ a ∈ preds, a ∈ (g₀.block b).preds)
    (hok : preds.forM (feed v slot) s = .ok () s') :
    Completing g₀ (some v) s' ∧ s'.graph.FedFrom b slot v (fed ++ preds) := by
  induction preds generalizing s fed with
  | nil =>
    cases hok
    rw [List.append_nil]
    exact ⟨h, hfed⟩
  | cons a preds ih =>
    obtain ⟨⟨⟩, s₁, hfeed, hok⟩ := bind_eq_ok.1 hok
    obtain ⟨h, hfed⟩ := feed_completing h₀ hb h hfed (hpreds a List.mem_cons_self) hfeed
    have := ih h hfed (fun c hc => hpreds c (List.mem_cons_of_mem _ hc)) hok
    rwa [List.append_assoc] at this

/-- A phi that is not complete yet is completed. -/
theorem complete_completing {maxDepth : Int} {p : Phi} {slot : Nat}
    (h : Completing g₀ (some v) s) (hv : (s.graph.block b).phis[slot]? = some v)
    (hp : (s.graph.definition v).phi? = some p) (hempty : p.incomings = [])
    (hok : complete maxDepth v p s = .ok () s') : Completing g₀ none s' := by
  obtain ⟨-, hblock, p', hp', hslot⟩ := h.filling.slotted b slot v hv
  obtain rfl : p' = p := Option.some.inj (hp'.symm.trans hp)
  obtain ⟨hne, s₁, hfeed, rfl⟩ := complete_ok hok
  rw [hblock, h.filling.preds_eq] at hne hfeed
  rw [hslot] at hfeed
  obtain ⟨hdone, hv₁, p₁, hp₁, hall⟩ := forM_feed_completing h₀ hb h
    ⟨hv, p', hp, by rw [hempty]; exact .nil⟩ (fun _ ha => ha) hfeed
  -- it has got its values now, in the order of the predecessors
  obtain ⟨-, -, p₂, hp₂, hslot₁⟩ := hdone.filling.slotted b slot v hv₁
  obtain rfl : p₂ = p₁ := Option.some.inj (hp₂.symm.trans hp₁)
  have hself := congrArg Definition.phi?
    (Graph.definition_modifyPhi_self hp₁ fun p => { p with complete := true })
  refine ⟨hdone.filling.modifyPhi hb hv₁ hp₁ rfl rfl (.inr ⟨rfl, ?_⟩), hdone.queued, ?_,
    hdone.quiet⟩
  · rw [Graph.Flows, if_pos rfl, hdone.filling.preds_eq, hslot₁, Int.toNat_natCast]
    exact ⟨hne, hall⟩
  · intro a ha k u hu
    refine .inr ?_
    by_cases huv : u = v
    · exact .inr ⟨_, by rw [huv]; exact hself, rfl⟩
    · rw [Graph.markComplete, Graph.definition_modifyPhi_of_ne huv]
      exact (hdone.waiting a ha k u hu).resolve_left fun heq => huv (Option.some.inj heq).symm

end

/-- A phi that is taken off the queue is the one that is being completed, unless it is complete. -/
theorem Completing.take {queue : Queue} (h : Completing g₀ none s)
    (hqueue : s.queue.toList = v :: queue.toList) :
    Completing g₀ (some v) { s with queue } ∧ (∀ p, (s.graph.definition v).phi? = some p →
      p.complete = true → Completing g₀ none { s with queue }) := by
  have hqueued : ∀ u ∈ queue.toList, ∃ b ∈ g₀.live, ∃ k : Nat,
      (s.graph.block b).phis[k]? = some u :=
    fun u hu => h.queued u (by rw [hqueue]; exact List.mem_cons_of_mem _ hu)
  have hwaiting : ∀ b ∈ g₀.live, ∀ (k : Nat) u, (s.graph.block b).phis[k]? = some u → v = u ∨
      u ∈ queue.toList ∨ ∃ p, (s.graph.definition u).phi? = some p ∧ p.complete = true := by
    intro b hb k u hu
    rcases (h.waiting b hb k u hu).resolve_left (by simp) with hmem | hdone
    · rw [hqueue] at hmem
      exact (List.mem_cons.1 hmem).imp Eq.symm .inl
    · exact .inr (.inr hdone)
  constructor
  · exact ⟨{ h.filling with
        settled := fun b hb k u q hu _ hq => h.filling.settled b hb k u q hu (by simp) hq },
      hqueued, fun b hb k u hu => (hwaiting b hb k u hu).imp_left (congrArg some), h.quiet⟩
  · intro p hp hcomplete
    refine ⟨h.filling, hqueued, fun b hb k u hu => .inr ?_, h.quiet⟩
    rcases hwaiting b hb k u hu with rfl | hother
    · exact .inr ⟨p, hp, hcomplete⟩
    · exact hother

/-- The first phi in the queue is left alone if it is complete, and completed otherwise. -/
theorem drain_cases (h : Completing g₀ none s) (maxDepth : Int) (fuel : Nat) :
    s.queue.toList = [] ∧ drain maxDepth (fuel + 1) s = .ok () s ∨
    ∃ v queue, ∃ b ∈ g₀.live, ∃ slot : Nat, ∃ p, s.queue.toList = v :: queue.toList ∧
      (s.graph.block b).phis[slot]? = some v ∧ (s.graph.definition v).phi? = some p ∧
      (Completing g₀ none { s with queue } ∧ p.complete = true ∧
          drain maxDepth (fuel + 1) s = drain maxDepth fuel { s with queue } ∨
        Completing g₀ (some v) { s with queue } ∧ p.complete = false ∧ p.incomings = [] ∧
          drain maxDepth (fuel + 1) s =
            (complete maxDepth v p >>= fun _ => drain maxDepth fuel) { s with queue }) := by
  rw [drain, get_bind]
  cases hnext : s.queue.next? with
  | none => exact .inl ⟨Queue.toList_of_next?_eq_none hnext, rfl⟩
  | some next =>
    obtain ⟨v, queue⟩ := next
    have hqueue := Queue.toList_of_next?_eq_some hnext
    obtain ⟨b, hb, slot, hv⟩ := h.queued v (by rw [hqueue]; exact List.mem_cons_self)
    obtain ⟨-, -, p, hp, -⟩ := h.filling.slotted b slot v hv
    refine .inr ⟨v, queue, b, hb, slot, p, hqueue, hv, hp, ?_⟩
    obtain ⟨hopen, hcomplete⟩ := h.take hqueue
    dsimp only
    rw [hp]
    cases hdone : p.complete with
    | true => exact .inl ⟨hcomplete p hp hdone, rfl, by simp only [hdone]; rfl⟩
    | false =>
      have hflows := h.filling.settled b hb slot v p hv (by simp) hp
      rw [Graph.Flows, hdone] at hflows
      exact .inr ⟨hopen, rfl, by simpa using hflows, by simp only [hdone]; rfl⟩

/-- Working off the queue completes all phis. -/
theorem drain_completing {maxDepth : Int} {fuel : Nat} (h₀ : g₀.Completable)
    (h : Completing g₀ none s) (hok : drain maxDepth fuel s = .ok () s') :
    Completing g₀ none s' ∧ s'.queue.toList = [] := by
  induction fuel generalizing s with
  | zero => cases hok
  | succ fuel ih =>
    obtain ⟨hempty, heq⟩ | ⟨v, queue, b, hb, slot, p, -, hv, hp, ⟨hrest, -, heq⟩ |
      ⟨hopen, -, hincomings, heq⟩⟩ := drain_cases h maxDepth fuel
    · rw [heq] at hok
      cases hok
      exact ⟨h, hempty⟩
    · rw [heq] at hok
      exact ih hrest hok
    · rw [heq] at hok
      obtain ⟨⟨⟩, s₁, hstep, hok⟩ := bind_eq_ok.1 hok
      exact ih (complete_completing h₀ hb hopen hv hp hincomings hstep) hok

end PhiCompletion

namespace Graph

variable {g g' : Graph} {b : BlockId}

/-- In the beginning all phis are in the queue. -/
theorem Completable.completing (h : g.Completable) :
    PhiCompletion.Completing g none ⟨g, { front := PhiCompletion.allPhis g }, #[]⟩ := by
  have hqueue : (PhiCompletion.Queue.toList { front := PhiCompletion.allPhis g }) =
      PhiCompletion.allPhis g := by simp [PhiCompletion.Queue.toList]
  refine ⟨.refl h, ?_, ?_, by simp⟩
  · intro v hv
    rw [hqueue] at hv
    obtain ⟨b, hb, hvb⟩ := List.mem_flatMap.1 hv
    obtain ⟨k, hk⟩ := List.mem_iff_getElem?.1 hvb
    exact ⟨b, hb, k, by simpa using hk⟩
  · intro b hb k v hv
    refine .inr (.inl ?_)
    rw [hqueue]
    exact List.mem_flatMap.2 ⟨b, hb, Array.mem_toList_iff.2 (Array.mem_of_getElem? hv)⟩

/-- The phis of a graph are completed: the graph only gets phis and what flows into them. -/
theorem Completable.completePhis_ok {maxDepth : Int} {r : PhiCompletion.State} (h : g.Completable)
    (hok : g.completePhis maxDepth = .ok () r) :
    PhiCompletion.Completing g none r ∧ r.queue.toList = [] :=
  PhiCompletion.drain_completing h h.completing hok

/-- A check that succeeds found no phi that is not complete. -/
theorem complete_of_verifyPhis (h : g.verifyPhis = .ok ()) (hb : b ∈ g.live) {k : Nat}
    {v : ValueId} (hv : (g.block b).phis[k]? = some v) :
    ∃ p, (g.definition v).phi? = some p ∧ p.complete = true := by
  have hnone : g.live.findSome? (fun b => (g.block b).phis.findSome? (g.phiIssue? b)) = none := by
    rw [verifyPhis] at h
    split at h
    · cases h
    · assumption
  have hblock := List.findSome?_eq_none_iff.1 hnone b hb
  have hissue : g.phiIssue? b v = none := by
    refine Array.findSome?_eq_none_iff.1 hblock v ?_
    exact Array.mem_of_getElem? hv
  unfold phiIssue? at hissue
  split at hissue
  · cases hissue
  · rename_i p hp
    refine ⟨p, hp, ?_⟩
    split at hissue
    · cases hissue
    · rename_i hcomplete
      simpa using hcomplete

/-- What flows into a phi is found by the predecessor. -/
theorem exists_incoming {slot : Nat} {preds : List BlockId} {p : Phi}
    (h : List.Forall₂ (g.Gives slot) preds p.incomings) {a : BlockId} (ha : a ∈ preds) :
    ∃ x, incoming? p a = some x ∧ g.exit? a slot = some x := by
  unfold incoming?
  generalize p.incomings = incomings at h
  induction h with
  | nil => cases ha
  | @cons b i preds incomings hi hrest ih =>
    rw [List.find?_cons]
    by_cases hab : i.block = a
    · rw [hab, beq_self_eq_true]
      exact ⟨i.value, rfl, hab ▸ hi.1 ▸ hi.2⟩
    · rw [beq_eq_false_iff_ne.2 hab]
      exact ih ((List.mem_cons.1 ha).resolve_left fun heq => hab (hi.1.trans heq.symm))

/-- Into a phi that is complete flows from every predecessor the value with which it is left. -/
theorem Filling.incoming {g₀ : Graph} (h : Filling g₀ none g) (hverified : g.verifyPhis = .ok ())
    (hb : b ∈ g.live) {k : Nat} {v : ValueId} (hv : (g.block b).phis[k]? = some v) :
    (g.block b).preds ≠ [] ∧ ∃ p, (g.definition v).phi? = some p ∧
      ∀ a ∈ (g.block b).preds, ∃ x, incoming? p a = some x ∧ g.exit? a k = some x := by
  obtain ⟨p, hp, hcomplete⟩ := complete_of_verifyPhis hverified hb hv
  obtain ⟨-, -, p', hp', hslot⟩ := h.slotted b k v hv
  obtain rfl : p' = p := Option.some.inj (hp'.symm.trans hp)
  have hflows := h.settled b (h.live_eq ▸ hb) k v p' hv (by simp) hp
  rw [Flows, if_pos hcomplete, hslot, Int.toNat_natCast] at hflows
  exact ⟨hflows.1, p', hp, fun a ha => exists_incoming hflows.2 ha⟩

/-! ## Graphs whose phis are all in slots -/

/-- What holds of a graph whose phis are completed, if all of them are in slots. -/
structure Feeding (g₀ g : Graph) : Prop extends Filling g₀ none g where
  typed : g.Typed
  definition_eq : ∀ v < g₀.definitions.size, (g₀.definition v).phi? = none →
    g.definition v = g₀.definition v
  flows : ∀ v p, (g.definition v).phi? = some p → g.Flows (g.definition v).block p
  demanded : ∀ b, g₀.Demands b (g.block b).phis.size

/-- A value that is a phi is the phi of a slot. -/
theorem Typed.exists_slot {v : ValueId} {p : Phi} (h : g.Typed)
    (hp : (g.definition v).phi? = some p) :
    ∃ k : Nat, (g.block (g.definition v).block).phis[k]? = some v := by
  rcases mem_code_iff.1 (h.placed v (lt_of_phi?_eq_some hp)) with hphi | hbody
  · exact Array.mem_iff_getElem?.1 hphi
  · obtain ⟨k, hk⟩ := Array.mem_iff_getElem?.1 hbody
    rw [(h.body _ k v hk).2.2] at hp
    cases hp

theorem Demands.passedOn (hedge : ∀ a b, b ∈ (g.block a).succs ↔ a ∈ (g.block b).preds) :
    g.PassedOn g.Demands where
  own _ := .own (Nat.le_refl _)
  mono _ _ _ := Demands.mono
  through b _ a ha m hm hlt := .through hm ((hedge a b).2 ha) hlt (by omega)

/-- While phis are completed, all phis of a typed graph are in slots. -/
theorem Filling.feeding {g₀ : Graph} (h : Filling g₀ none g) (htyped : g₀.Typed)
    (hunfed : g₀.Unfed) (hedge : ∀ a b, b ∈ (g₀.block a).succs ↔ a ∈ (g₀.block b).preds) :
    Feeding g₀ g := by
  have hnone : ∀ v < g₀.definitions.size, (g₀.definition v).phi? = none →
      g.definition v = g₀.definition v := by
    intro v hlt hphi
    refine h.others_eq v hlt fun b _ hv => ?_
    obtain ⟨k, hk⟩ := Array.mem_iff_getElem?.1 hv
    obtain ⟨-, -, p, hp, -⟩ := htyped.phi b k v hk
    rw [hphi] at hp
    cases hp
  refine ⟨h, h.keeps_typed htyped, hnone, fun v p hp => ?_, h.passed _ (Demands.passedOn hedge)⟩
  obtain ⟨k, hk⟩ := (h.keeps_typed htyped).exists_slot hp
  by_cases hlive : (g.definition v).block ∈ g₀.live
  · exact h.settled _ hlive k v p hk (by simp) hp
  · -- nothing has flown into the phis of a block outside the graph
    rw [h.removed_eq _ hlive] at hk
    obtain ⟨hlt, hblock, -⟩ := htyped.phi _ k v hk
    have hsame : g.definition v = g₀.definition v := by
      refine h.others_eq v hlt fun b hb hv => hlive ?_
      obtain ⟨j, hj⟩ := Array.mem_iff_getElem?.1 hv
      rwa [← hblock, (htyped.phi b j v hj).2.1]
    rw [hsame] at hp
    rw [Flows, hunfed v p hp]
    simp

end Graph

end StackLift
