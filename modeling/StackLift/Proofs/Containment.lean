/-
# Graphs whose operands stay in their blocks

What a block is made of: its values take their operands from what stands before them in the block,
except the next element of an iterator, with which the body of a loop begins, and its phis take
theirs from the predecessors.  `Contained` is what the operations on graphs keep, and
`OperandsLocal` is what it says about the code of blocks.

* `Contained.grows` : operations only add, so only what is new has to be checked;
* `Contained.define`, `Contained.terminate`, `Contained.exitSlot` : what is added is made of values
  of the block;
* `Contained.defineNext` : the body of a loop may begin with the next element of an iterator;
* `Contained.operandsLocal` : then operands are local.
-/
import StackLift.Proofs.SsaForm

namespace StackLift

/-- Whether an expression is the next element of an iterator. -/
def Expr.IsNext (e : Expr) : Prop :=
  ∃ args keywords, e = .call (some (.operator .iterNext)) args keywords

namespace Graph

variable {c : Code} {g g' : Graph} {a b : BlockId} {v : Operand} {u : ValueId} {j k : Nat}

/-- Whether a block is the header of a loop over an iterator, with another one as the body: its run
ends with the instruction of a loop, and after the check of the iterator it branches to the body. -/
structure Heads (g : Graph) (c : Code) (a b : BlockId) (u : ValueId) : Prop where
  iterator : u ∈ (g.block a).code
  last : ∃ i, (c.blockRun (g.offset a)).getLast? = some i ∧ i.op.effect? = some .forLoop ∧
    i.next = g.offset b
  check : ∃ w exit, (g.block a).terminator = some (.branch (some w) b exit) ∧
    w ∈ (g.block a).code ∧
    (g.definition w).expr = some (.call (some (.operator .iterValid)) [some u] [])

/-- How the value of number `k` of a block may be made: from what stands before it in the block, or,
as the first one of the body of a loop, from an iterator of the header. -/
inductive Grounded (g : Graph) (c : Code) (b : BlockId) (k : Nat) (v : ValueId) : Prop
  | plain {e : Expr} (expr : (g.definition v).expr = some e) (phi : ∀ p, e ≠ .phi p)
      (next : ¬ e.IsNext) (operands : ∀ w ∈ e.operands, g.Before b k w)
  | next {a : BlockId} {u : ValueId}
      (expr : (g.definition v).expr = some (.call (some (.operator .iterNext)) [some u] []))
      (first : k = 0) (heads : g.Heads c a b u)

/-- Whether what flows into a phi comes from a predecessor and is a value of it. -/
def Draws (g : Graph) (v : ValueId) (i : Incoming) : Prop :=
  i.block ∈ (g.block (g.definition v).block).preds ∧
    ∃ u, i.value = some u ∧ u ∈ (g.block i.block).code

/-- What holds of the operands in a graph while a code is lifted. -/
structure Contained (c : Code) (g : Graph) : Prop where
  regular : g.Regular
  stack : ∀ b, ∀ v ∈ (g.block b).stack, ∃ u, v = some u ∧ u ∈ (g.block b).body
  body : ∀ b (k : Nat) v, (g.block b).body[k]? = some v → g.Grounded c b k v
  terminator : ∀ b t, (g.block b).terminator = some t →
    ∀ v ∈ t.operands, g.Before b (g.block b).body.size v
  incoming : ∀ v p, (g.definition v).phi? = some p → ∀ i ∈ p.incomings, g.Draws v i

/-! ## Standing before -/

/-- What comes before a place comes before any later one. -/
theorem Before.mono (h : g.Before b j v) (hle : j ≤ k) : g.Before b k v := by
  obtain ⟨u, hv, hu | ⟨i, hi, hu⟩⟩ := h
  · exact ⟨u, hv, .inl hu⟩
  · exact ⟨u, hv, .inr ⟨i, Nat.lt_of_lt_of_le hi hle, hu⟩⟩

/-- The values before the end of a block are those of its code. -/
theorem before_size_of_mem_code (hu : u ∈ (g.block b).code) :
    g.Before b (g.block b).body.size (some u) := by
  rcases mem_code_iff.1 hu with hu | hu
  · exact ⟨u, rfl, .inl hu⟩
  · obtain ⟨k, hk⟩ := Array.mem_iff_getElem?.1 hu
    exact ⟨u, rfl, .inr ⟨k, (Array.getElem?_eq_some_iff.1 hk).1, hk⟩⟩

/-! ## Growing -/

/-- Whether nothing was taken from blocks and values, though phis may have been fed. -/
structure Grows (g g' : Graph) : Prop where
  offset_eq : ∀ b < g.blocks.size, g'.offset b = g.offset b
  phis_mono : ∀ b (k : Nat) v, (g.block b).phis[k]? = some v → (g'.block b).phis[k]? = some v
  body_mono : ∀ b (k : Nat) v, (g.block b).body[k]? = some v → (g'.block b).body[k]? = some v
  terminator_mono : ∀ b t, (g.block b).terminator = some t → (g'.block b).terminator = some t
  preds_mono : ∀ b, ∀ a ∈ (g.block b).preds, a ∈ (g'.block b).preds
  expr_mono : ∀ v e, (g.definition v).expr = some e → (∀ p, e ≠ .phi p) →
    (g'.definition v).expr = some e
  block_eq : ∀ v < g.definitions.size, (g'.definition v).block = (g.definition v).block

/-- A value with an expression was made. -/
theorem lt_size_of_expr_eq_some {e : Expr} (h : (g.definition u).expr = some e) :
    u < g.definitions.size := by
  refine Nat.lt_of_not_le fun hle => ?_
  rw [definition_of_size_le hle] at h
  cases h

/-- A block that is left was made. -/
theorem lt_size_of_terminator_eq_some {t : Terminator} (h : (g.block b).terminator = some t) :
    b < g.blocks.size := by
  refine Nat.lt_of_not_le fun hle => ?_
  rw [block_of_size_le hle] at h
  cases h

/-- A block with values was made. -/
theorem lt_size_of_mem_body (h : (g.block b).body[k]? = some u) : b < g.blocks.size := by
  refine Nat.lt_of_not_le fun hle => ?_
  rw [block_of_size_le hle] at h
  cases h

namespace Grows

/-- A value stays in the code of its block when the graph grows. -/
theorem mem_code (h : g.Grows g') (hu : u ∈ (g.block b).code) : u ∈ (g'.block b).code := by
  rw [mem_code_iff, Array.mem_iff_getElem?, Array.mem_iff_getElem?] at hu ⊢
  exact hu.imp (fun ⟨k, hk⟩ => ⟨k, h.phis_mono b k u hk⟩) fun ⟨k, hk⟩ => ⟨k, h.body_mono b k u hk⟩

theorem size_body_le (h : g.Grows g') (b : BlockId) :
    (g.block b).body.size ≤ (g'.block b).body.size := by
  refine Nat.le_of_not_lt fun hlt => ?_
  have := h.body_mono b _ _ (Array.getElem?_eq_getElem hlt)
  rw [Array.getElem?_eq_none (Nat.le_refl _)] at this
  cases this

/-- A value stays before another one when the graph grows. -/
theorem before (h : g.Grows g') (hv : g.Before b k v) : g'.Before b k v := by
  obtain ⟨u, rfl, hu | ⟨j, hj, hu⟩⟩ := hv
  · obtain ⟨k, hk⟩ := Array.mem_iff_getElem?.1 hu
    exact ⟨u, rfl, .inl (Array.mem_of_getElem? (h.phis_mono b k u hk))⟩
  · exact ⟨u, rfl, .inr ⟨j, hj, h.body_mono b j u hu⟩⟩

/-- The header of a loop stays that of its body. -/
theorem heads (h : g.Grows g') (hb : b < g.blocks.size) (hu : g.Heads c a b u) :
    g'.Heads c a b u := by
  obtain ⟨hiterator, ⟨i, hi, hfor, hnext⟩, w, exit, hterm, hw, hexpr⟩ := hu
  refine ⟨h.mem_code hiterator, ⟨i, ?_, hfor, hnext.trans (h.offset_eq b hb).symm⟩,
    w, exit, h.terminator_mono a _ hterm, h.mem_code hw, h.expr_mono w _ hexpr (by rintro p ⟨⟩)⟩
  rw [h.offset_eq a (lt_size_of_terminator_eq_some hterm)]
  exact hi

/-- The operands of a value stay where they are. -/
theorem grounded (h : g.Grows g') (hb : b < g.blocks.size) (hu : g.Grounded c b k u) :
    g'.Grounded c b k u := by
  cases hu with
  | plain expr phi next operands =>
    exact .plain (h.expr_mono u _ expr phi) phi next fun w hw => h.before (operands w hw)
  | next expr first heads =>
    exact .next (h.expr_mono u _ expr (by rintro p ⟨⟩)) first (h.heads hb heads)

/-- What flows into a phi stays a value of the predecessor. -/
theorem draws (h : g.Grows g') {i : Incoming} (hu : u < g.definitions.size) (hi : g.Draws u i) :
    g'.Draws u i := by
  obtain ⟨hpred, w, hw, hmem⟩ := hi
  refine ⟨?_, w, hw, h.mem_code hmem⟩
  rw [h.block_eq u hu]
  exact h.preds_mono _ _ hpred

end Grows

/-- What has an edge is a block. -/
theorem Regular.lt_size_of_mem_preds (h : g.Regular) (ha : a ∈ (g.block b).preds) :
    a < g.blocks.size := by
  refine Nat.lt_of_not_le fun hle => ?_
  have hb := (h.edge_iff a b).2 ha
  rw [block_of_size_le hle] at hb
  cases hb

namespace Contained

/-- What is new in a graph that has grown has to be checked, and nothing else. -/
theorem grows (h : g.Contained c) (hg : g.Grows g') (hregular : g'.Regular)
    (hstack : ∀ b, ∀ v ∈ (g'.block b).stack, v ∈ (g.block b).stack ∨
      ∃ u, v = some u ∧ u ∈ (g'.block b).body)
    (hbody : ∀ b (k : Nat) u, (g'.block b).body[k]? = some u → (g.block b).body[k]? = some u ∨
      g'.Grounded c b k u)
    (hterm : ∀ b t, (g'.block b).terminator = some t → (g.block b).terminator = some t ∨
      ∀ v ∈ t.operands, g'.Before b (g'.block b).body.size v)
    (hincoming : ∀ u p, (g'.definition u).phi? = some p → ∀ i ∈ p.incomings,
      (∃ q, (g.definition u).phi? = some q ∧ i ∈ q.incomings) ∨ g'.Draws u i) :
    g'.Contained c := by
  refine ⟨hregular, fun b v hv => ?_, fun b k u hu => ?_, fun b t ht v hv => ?_,
    fun u p hp i hi => ?_⟩
  · rcases hstack b v hv with hold | hnew
    · obtain ⟨u, hu, hmem⟩ := h.stack b v hold
      obtain ⟨k, hk⟩ := Array.mem_iff_getElem?.1 hmem
      exact ⟨u, hu, Array.mem_of_getElem? (hg.body_mono b k u hk)⟩
    · exact hnew
  · rcases hbody b k u hu with hold | hnew
    · exact hg.grounded (lt_size_of_mem_body hold) (h.body b k u hold)
    · exact hnew
  · rcases hterm b t ht with hold | hnew
    · exact (hg.before (h.terminator b t hold v hv)).mono (hg.size_body_le b)
    · exact hnew v hv
  · rcases hincoming u p hp i hi with ⟨q, hq, hold⟩ | hnew
    · exact hg.draws (lt_of_phi?_eq_some hq) (h.incoming u q hq i hold)
    · exact hnew

end Contained

/-- A value that is defined is the last one of the body. -/
theorem block_define_self (hb : b < g.blocks.size) (line : Int) (e : Expr) :
    (g.define b line (some e)).2.block b =
      { g.block b with body := (g.block b).body.push g.definitions.size } :=
  block_modifyBlock_self hb _

/-- A value that is defined gets the next number. -/
theorem definition_define (g : Graph) (b : BlockId) (line : Int) (e : Expr) (v : ValueId) :
    (g.define b line (some e)).2.definition v =
      if v = g.definitions.size then ⟨line, b, some e⟩ else g.definition v :=
  definition_addDefinition ..

/-- A block is left only once. -/
theorem grows_terminate (hb : b < g.blocks.size) {line : Int} {t : Terminator}
    (ht : ∀ n ∈ t.targets, n < g.blocks.size) (hok : g.terminate b line t = .ok g') :
    g.Grows g' := by
  have hstays := stays_terminate hb ht hok
  obtain ⟨-, hdefs, -⟩ := terminate_frame hok
  have hdef : ∀ v, g'.definition v = g.definition v := fun v => by
    rw [definition, hdefs, definition]
  refine ⟨fun a _ => (hstays a).1, fun a k v hv => ?_, fun a k v hv => ?_,
    fun a t' ht' => ?_, fun a d hd => ?_, fun v e he _ => ?_, fun v _ => ?_⟩
  · rwa [(hstays a).2.1]
  · rwa [(hstays a).2.2.1]
  · rw [block_terminate hb ht hok]
    split
    · -- a block that has a terminator cannot be left
      rename_i hab
      rw [hab] at ht'
      unfold Graph.terminate at hok
      rw [ht'] at hok
      cases hok
    · exact ht'
  · exact (edges_terminate hb ht hok a d).2.2 (.inl hd)
  · rwa [hdef]
  · rw [hdef]

/-- Feeding a phi takes nothing away. -/
theorem grows_modifyPhi {p : Phi} (hp : (g.definition u).phi? = some p) (f : Phi → Phi) :
    g.Grows (g.modifyPhi u f) := by
  refine ⟨fun _ _ => rfl, fun _ _ _ h => h, fun _ _ _ h => h, fun _ _ h => h,
    fun _ _ h => h, fun w e he hne => ?_, fun w _ => (g.place_modifyPhi u f w).1⟩
  -- only what is no phi has to stay as it is
  have hwu : w ≠ u := by
    rintro rfl
    rw [expr_of_phi?_eq_some hp] at he
    exact hne p (Option.some.inj he).symm
  rw [definition_modifyPhi_of_ne hwu]
  exact he

theorem Grows.refl (g : Graph) : g.Grows g :=
  ⟨fun _ _ => rfl, fun _ _ _ h => h, fun _ _ _ h => h, fun _ _ h => h, fun _ _ h => h,
    fun _ _ h _ => h, fun _ _ => rfl⟩

/-- A block that is removed keeps its code. -/
theorem grows_discard (g : Graph) (b : BlockId) : g.Grows (g.discard b) :=
  ⟨fun _ _ => rfl, fun _ _ _ h => h, fun _ _ _ h => h, fun _ _ h => h,
    fun _ _ h => h, fun _ _ h _ => h, fun _ _ => rfl⟩

/-- A new block changes the code of no other one. -/
theorem grows_addBlock (g : Graph) (o : Int) : g.Grows (g.addBlock o) where
  offset_eq := (g.extends_addBlock o).offset_eq
  phis_mono := (g.extends_addBlock o).phis_mono
  body_mono := (g.extends_addBlock o).body_mono
  terminator_mono b t ht := by
    rcases g.block_addBlock_cases o b with ⟨-, hdefault⟩ | hold
    · rw [hdefault] at ht
      cases ht
    · rwa [hold]
  preds_mono b a ha := by
    rcases g.block_addBlock_cases o b with ⟨-, hdefault⟩ | hold
    · rw [hdefault] at ha
      cases ha
    · rwa [hold]
  expr_mono _ _ he _ := he
  block_eq _ _ := rfl

theorem grows_ensure (g : Graph) (o : Int) : g.Grows (g.ensure o).2 := by
  unfold Graph.ensure
  split
  · exact .refl g
  · exact g.grows_addBlock o

/-- A block that is asked for is there afterwards, and so are all others. -/
theorem Regular.size_ensure (h : g.Regular) (o : Int) :
    (g.ensure o).1 < (g.ensure o).2.blocks.size ∧
      g.blocks.size ≤ (g.ensure o).2.blocks.size := by
  unfold Graph.ensure
  split
  · rename_i b hb
    exact ⟨h.lt_size b (offset_of_find?_eq_some hb).1, Nat.le_refl _⟩
  · rw [size_addBlock]
    exact ⟨Nat.lt_succ_self _, Nat.le_succ _⟩

/-! ## Work in a block -/

/-- Work in a block adds values at the end of its body. -/
theorem WorksIn.grows (h : WorksIn b g g') : g.Grows g' where
  offset_eq a _ := h.offset_eq a
  phis_mono := h.toExtends.phis_mono
  body_mono := h.toExtends.body_mono
  terminator_mono a t ht := (h.terminator_eq a).trans ht
  preds_mono a d hd := by rwa [h.preds_eq]
  expr_mono v e he _ := by rwa [h.definition_eq v (lt_size_of_expr_eq_some he)]
  block_eq v hv := by rw [h.definition_eq v hv]

namespace Contained

/-- Work in a block keeps to it if what is pushed and what is made there does. -/
theorem worksIn (h : g.Contained c) (hw : WorksIn b g g') (hregular : g'.Regular)
    (hstack : ∀ v ∈ (g'.block b).stack, v ∈ (g.block b).stack ∨
      ∃ u, v = some u ∧ u ∈ (g'.block b).body)
    (hbody : ∀ (k : Nat) u, (g'.block b).body[k]? = some u → (g.block b).body[k]? = some u ∨
      g'.Grounded c b k u)
    (hphi : ∀ u p, (g'.definition u).phi? = some p →
      (g.definition u).phi? = some p ∨ p.incomings = []) : g'.Contained c := by
  refine h.grows hw.grows hregular (fun a v hv => ?_) (fun a k u hu => ?_) (fun a t ht => ?_)
    fun u p hp i hi => ?_
  · by_cases hab : a = b
    · exact hab ▸ hstack v (hab ▸ hv)
    · exact .inl (hw.others a hab ▸ hv)
  · by_cases hab : a = b
    · exact hab ▸ hbody k u (hab ▸ hu)
    · exact .inl (hw.others a hab ▸ hu)
  · exact .inl ((hw.terminator_eq a).symm.trans ht)
  · rcases hphi u p hp with hold | hnone
    · exact .inl ⟨p, hold, hi⟩
    · rw [hnone] at hi
      cases hi

/-- Phis that nothing flows into draw on no block. -/
theorem addSlots (h : g.Contained c) (hb : b < g.blocks.size) (line : Int) (n : Nat) :
    (g.addSlots b line n).Contained c := by
  obtain ⟨new, -, hblock⟩ := block_addSlots_self hb line n
  have hwork := g.worksIn_addSlots b line n
  refine h.worksIn hwork (h.regular.worksIn hwork (h.regular.slotted.addSlots b line n))
    (fun v hv => ?_) (fun k u hu => ?_) fun u p hp => ?_
  · rw [hblock] at hv
    exact .inl hv
  · rw [hblock] at hu
    exact .inl hu
  · exact (phi?_addSlots hp).imp_right fun hnew => by rw [hnew]

/-- What is found on the stack is a value of the block. -/
theorem peek (h : g.Contained c) (hb : b < g.blocks.size) (line : Int) :
    (g.peek b line).2.Contained c := by
  unfold Graph.peek
  split
  · exact h
  · exact h.addSlots hb line _

/-- What is on top of a block is one of its values. -/
theorem mem_code_peek (h : g.Contained c) (hb : b < g.blocks.size) (line : Int) :
    ∃ u, (g.peek b line).1 = some u ∧ u ∈ ((g.peek b line).2.block b).code := by
  rcases peek_cases hb line with ⟨v, rest, hstack, hv, hblock⟩ | ⟨new, u, -, -, hu, hmem, hblock⟩
  · obtain ⟨u, rfl, hu⟩ := h.stack b v (hstack ▸ List.mem_cons_self)
    rw [hblock]
    exact ⟨u, hv, mem_code_iff.2 (.inr hu)⟩
  · refine ⟨u, hu, mem_code_iff.2 (.inl ?_)⟩
    rw [hblock]
    exact Array.mem_of_getElem? hmem

/-- A change to the stack of a block keeps to it. -/
theorem restack (h : g.Contained c) {f : Block → Block}
    (hf : ∃ stack used, f (g.block b) = { g.block b with stack, used })
    (hstack : ∀ v ∈ (f (g.block b)).stack, v ∈ (g.block b).stack ∨
      ∃ u, v = some u ∧ u ∈ (g.block b).body) : (g.modifyBlock b f).Contained c := by
  obtain ⟨stack, used, heq⟩ := hf
  have hbody : ((g.modifyBlock b f).block b).body = (g.block b).body := by
    rw [block_modifyBlock, heq]
    split <;> rfl
  have hwork : WorksIn b g (g.modifyBlock b f) := worksIn_modifyBlock ⟨stack, used, heq⟩
  have hphis : (f (g.block b)).phis = (g.block b).phis := by rw [heq]
  refine h.worksIn hwork (h.regular.worksIn hwork (h.regular.slotted.modifyBlock hphis))
    (fun v hv => ?_) (fun k u hu => ?_) fun u p hp => .inl hp
  · rw [block_modifyBlock] at hv
    split at hv
    · rw [hbody]
      exact hstack v hv
    · exact .inl hv
  · rw [hbody] at hu
    exact .inl hu

/-- What is left on the stack are values of the block. -/
theorem pop (h : g.Contained c) (hb : b < g.blocks.size) (line : Int) :
    (g.pop b line).2.Contained c := by
  rw [pop_eq]
  refine (h.peek hb line).restack (exists_dropTop_eq _) fun v hv => .inl ?_
  cases hstack : ((g.peek b line).2.block b).stack with
  | nil =>
    rw [dropTop_of_nil hstack] at hv
    exact absurd (hstack ▸ hv) List.not_mem_nil
  | cons u rest =>
    rw [dropTop_of_cons hstack] at hv
    exact List.mem_cons_of_mem u hv

/-- Taking or looking at the top gives a value of the block. -/
theorem top (h : g.Contained c) (pops : Bool) (hb : b < g.blocks.size) (line : Int) :
    (g.top pops b line).2.Contained c ∧
      ∃ u, (g.top pops b line).1 = some u ∧ u ∈ ((g.top pops b line).2.block b).code := by
  obtain ⟨u, hu, hmem⟩ := h.mem_code_peek hb line
  cases pops with
  | false => exact ⟨h.peek hb line, u, hu, hmem⟩
  | true =>
    have hdrop : WorksIn b (g.peek b line).2 ((g.peek b line).2.modifyBlock b dropTop) :=
      worksIn_modifyBlock (exists_dropTop_eq _)
    refine ⟨h.pop hb line, u, ?_, ?_⟩
    · rw [Graph.top, if_pos rfl, pop_eq]
      exact hu
    · rw [Graph.top, if_pos rfl, pop_eq]
      exact hdrop.grows.mem_code hmem

/-- A value of the block may be pushed. -/
theorem push (h : g.Contained c) (hu : u ∈ (g.block b).body) :
    (g.push b (some u)).Contained c := by
  refine h.restack ⟨_, _, rfl⟩ fun v hv => ?_
  rcases List.mem_cons.1 hv with rfl | hv
  · exact .inr ⟨u, rfl, hu⟩
  · exact .inl hv

/-- A new value keeps to its block if it is made of what may be there. -/
theorem define (h : g.Contained c) (hb : b < g.blocks.size) (line : Int) {e : Expr}
    (he : ∀ p, e ≠ .phi p) (hmade : (g.define b line (some e)).2.Grounded c b
      (g.block b).body.size g.definitions.size) : (g.define b line (some e)).2.Contained c := by
  have hblock := block_define_self hb line e
  refine h.worksIn (g.worksIn_define b line (some e)) (h.regular.define b line (some e))
    (fun v hv => ?_) (fun k u hu => ?_) fun u p hp => ?_
  · rw [hblock] at hv
    exact .inl hv
  · rw [hblock, Array.getElem?_push] at hu
    split at hu
    · rename_i hk
      cases hu
      exact .inr (hk ▸ hmade)
    · exact .inl hu
  · rw [definition_define] at hp
    split at hp
    · cases e with
      | phi q => exact absurd rfl (he q)
      | _ => cases hp
    · exact .inl hp

/-! ## Blocks and edges -/

/-- A new block has neither values nor a stack. -/
theorem addBlock (h : g.Contained c) {o : Int} (ho : g.find? o = none) :
    (g.addBlock o).Contained c := by
  have hcases := g.block_addBlock_cases o
  refine h.grows (g.grows_addBlock o) (h.regular.addBlock ho) (fun b v hv => ?_)
    (fun b k u hu => ?_) (fun b t ht => ?_) fun u p hp i hi => .inl ⟨p, hp, hi⟩
  · rcases hcases b with ⟨hnew, -⟩ | hold
    · rw [hnew] at hv
      cases hv
    · exact .inl (hold ▸ hv)
  · rcases hcases b with ⟨hnew, -⟩ | hold
    · rw [hnew] at hu
      cases hu
    · exact .inl (hold ▸ hu)
  · rcases hcases b with ⟨hnew, -⟩ | hold
    · rw [hnew] at ht
      cases ht
    · exact .inl (hold ▸ ht)

theorem ensure (h : g.Contained c) (o : Int) : (g.ensure o).2.Contained c := by
  unfold Graph.ensure
  split
  · exact h
  · rename_i hnone
    exact h.addBlock hnone

/-- Leaving a block keeps to it if the operands with which it is left do. -/
theorem terminate (h : g.Contained c) (hb : b < g.blocks.size) {line : Int} {t : Terminator}
    (ht : ∀ n ∈ t.targets, n < g.blocks.size)
    (hoperands : ∀ v ∈ t.operands, g.Before b (g.block b).body.size v)
    (hok : g.terminate b line t = .ok g') : g'.Contained c := by
  have hblock := block_terminate hb ht hok
  have hstays := stays_terminate hb ht hok
  obtain ⟨-, hdefs, -⟩ := terminate_frame hok
  have hg := grows_terminate hb ht hok
  refine h.grows hg (h.regular.terminate hb ht hok) (fun a v hv => ?_) (fun a k u hu => ?_)
    (fun a t' ht' => ?_) fun u p hp i hi => ?_
  · rw [hblock] at hv
    split at hv <;> exact .inl hv
  · rw [(hstays a).2.2.1] at hu
    exact .inl hu
  · rw [hblock] at ht'
    split at ht'
    · rename_i hab
      cases ht'
      exact .inr fun v hv => hab ▸ (hg.before (hoperands v hv)).mono (hg.size_body_le b)
    · exact .inl ht'
  · rw [definition, hdefs] at hp
    exact .inl ⟨p, hp, hi⟩

/-- Operands need their block, but not that it is in the graph. -/
theorem discard (h : g.Contained c) (b : BlockId) : (g.discard b).Contained c :=
  h.grows (g.grows_discard b) (h.regular.of_same List.erase_sublist rfl (fun _ => rfl)
    (fun _ => rfl) (fun _ => rfl) h.regular.slotted) (fun _ _ => .inl) (fun _ _ _ => .inl)
    (fun _ _ => .inl) fun _ p hp _ hi => .inl ⟨p, hp, hi⟩

theorem foldl_discard (h : g.Contained c) (dead : List BlockId) :
    (dead.foldl Graph.discard g).Contained c := by
  induction dead generalizing g with
  | nil => exact h
  | cons b dead ih => exact ih (h.discard b)

/-! ## Phis -/

/-- What is let flow into a phi has to be a value of the predecessor. -/
theorem modifyPhi {p : Phi} {f : Phi → Phi} (h : g.Contained c)
    (hp : (g.definition u).phi? = some p) (hslot : (f p).slot = p.slot)
    (hf : ∀ i ∈ (f p).incomings, i ∈ p.incomings ∨ g.Draws u i) :
    (g.modifyPhi u f).Contained c := by
  have hg := grows_modifyPhi hp f
  refine h.grows hg (h.regular.modifyPhi hp hslot) (fun _ _ => .inl) (fun _ _ _ => .inl)
    (fun _ _ => .inl) fun w q hq i hi => ?_
  by_cases hne : w = u
  · subst hne
    rw [definition_modifyPhi_self hp] at hq
    cases hq
    exact (hf i hi).imp (fun hold => ⟨p, hp, hold⟩) (hg.draws (lt_of_phi?_eq_some hp))
  · rw [definition_modifyPhi_of_ne hne] at hq
    exact .inl ⟨q, hq, hi⟩

/-- What a block is left with is one of its values. -/
theorem exitSlot (h : g.Contained c) (hb : b < g.blocks.size) (line : Int) (depth : Nat) :
    (g.exitSlot b line depth).2.Contained c ∧ ∃ u, (g.exitSlot b line depth).1.1 = some u ∧
      u ∈ ((g.exitSlot b line depth).2.block b).code := by
  rcases Nat.lt_or_ge depth (g.block b).stack.length with hlt | hge
  · rw [exitSlot_of_lt hlt]
    obtain ⟨u, hu, hmem⟩ := h.stack b _ (List.getElem_mem hlt)
    exact ⟨h, u, hu, mem_code_iff.2 (.inr hmem)⟩
  · rw [exitSlot_of_ge hge]
    refine ⟨h.addSlots hb line _, _, rfl, mem_code_iff.2 (.inl ?_)⟩
    exact Array.mem_of_getElem? (getElem?_entrySlot hb line _)

end Contained

/-! ## Loops -/

/-- The value that was emitted last is on top. -/
theorem pop_emit (hb : b < g.blocks.size) (line line' : Int) (e : Expr) :
    ((g.emit b line e).pop b line').1 = some g.definitions.size ∧
      (((g.emit b line e).pop b line').2.definition g.definitions.size).expr = some e := by
  have hlt : g.definitions.size < (g.emit b line e).definitions.size := by
    simp [emit, push, define, addDefinition]
  constructor
  · unfold Graph.pop
    rw [block_emit_self hb]
  · rw [((g.emit b line e).worksIn_pop b line').definition_eq _ hlt, definition_emit, if_pos rfl]

/-- A block that is left by the check of an iterator heads a loop. -/
theorem heads_of_terminate {exit : BlockId} {line : Int} {w : ValueId} {i : Instruction}
    (hb : b < g.blocks.size) (ha : a < g.blocks.size) (hexit : exit < g.blocks.size)
    (hu : u ∈ (g.block b).code) (hw : w ∈ (g.block b).code)
    (hexpr : (g.definition w).expr = some (.call (some (.operator .iterValid)) [some u] []))
    (hlast : (c.blockRun (g.offset b)).getLast? = some i) (hfor : i.op.effect? = some .forLoop)
    (hnext : i.next = g.offset a)
    (hok : g.terminate b line (.branch (some w) a exit) = .ok g') : g'.Heads c b a u := by
  have htargets : ∀ n ∈ (Terminator.branch (some w) a exit).targets, n < g.blocks.size := by
    simp [Terminator.targets, ha, hexit]
  have hg := grows_terminate hb htargets hok
  refine ⟨hg.mem_code hu, ⟨i, ?_, hfor, hnext.trans (hg.offset_eq a ha).symm⟩, w, exit, ?_,
    hg.mem_code hw, hg.expr_mono w _ hexpr (by rintro p ⟨⟩)⟩
  · rw [hg.offset_eq b hb]
    exact hlast
  · rw [block_terminate hb htargets hok, if_pos rfl]

/-- The body of a loop may begin with the next element of the iterator. -/
theorem Contained.defineNext (h : g.Contained c) (hb : b < g.blocks.size)
    (hempty : (g.block b).body = #[]) (hheads : g.Heads c a b u) (line : Int) :
    (g.define b line (some (.call (some (.operator .iterNext)) [some u] []))).2.Contained c := by
  have hheads' := (g.worksIn_define b line
    (some (.call (some (.operator .iterNext)) [some u] []))).grows.heads hb hheads
  refine h.define hb line (by rintro p ⟨⟩) (.next ?_ ?_ hheads')
  · rw [definition_define, if_pos rfl]
  · rw [hempty]
    rfl

/-! ## Places in the code -/

/-- Whether operands stay in their blocks. -/
structure OperandsLocal (g : Graph) (c : Code) : Prop where
  /-- What is on the stack of a block is one of its values, and not a phi. -/
  stack : ∀ b, ∀ v ∈ (g.block b).stack,
    ∃ u, v = some u ∧ u ∈ (g.block b).code ∧ (g.definition u).phi? = none
  /-- A value is a phi or the next element of an iterator, or its operands stand before it. -/
  operands : ∀ b (n : Nat) u, (g.block b).code[n]? = some u → (g.definition u).phi? = none →
    ∃ e, (g.definition u).expr = some e ∧
      (e.IsNext ∨ ∀ v ∈ e.operands, ∃ w, v = some w ∧ w ∈ (g.block b).code.take n)
  /-- The operands with which a block is left are values of it. -/
  terminator : ∀ b t, (g.block b).terminator = some t →
    ∀ v ∈ t.operands, ∃ w, v = some w ∧ w ∈ (g.block b).code
  /-- The next element of an iterator is the first value behind the phis of a block, the body of a
  loop, and the iterator is a value of the header. -/
  next : ∀ b (n : Nat) u args keywords, (g.block b).code[n]? = some u →
    (g.definition u).expr = some (.call (some (.operator .iterNext)) args keywords) →
    n = (g.block b).phis.size ∧ keywords = [] ∧ ∃ a w, args = [some w] ∧ g.Heads c a b w
  /-- What flows into a phi flows from a predecessor and is one of its values. -/
  incoming : ∀ b, ∀ u ∈ (g.block b).code, ∀ p, (g.definition u).phi? = some p →
    ∀ i ∈ p.incomings, i.block ∈ (g.block b).preds ∧
      ∃ w, i.value = some w ∧ w ∈ (g.block i.block).code

/-- A position in the code of a block is one among its phis or one in its body. -/
theorem getElem?_code (h : (g.block b).code[n]? = some u) :
    (g.block b).phis[n]? = some u ∨
      ∃ k, n = (g.block b).phis.size + k ∧ (g.block b).body[k]? = some u := by
  rw [Block.code] at h
  rcases Nat.lt_or_ge n (g.block b).phis.toList.length with hlt | hge
  · rw [List.getElem?_append_left hlt, Array.getElem?_toList] at h
    exact .inl h
  · rw [List.getElem?_append_right hge, Array.getElem?_toList, Array.length_toList] at h
    rw [Array.length_toList] at hge
    exact .inr ⟨n - (g.block b).phis.size, by omega, h⟩

/-- What stands before a value stands before it in the code of the block. -/
theorem mem_take_of_before (h : g.Before b k v) :
    ∃ w, v = some w ∧ w ∈ (g.block b).code.take ((g.block b).phis.size + k) := by
  obtain ⟨w, rfl, hw⟩ := h
  refine ⟨w, rfl, ?_⟩
  rw [Block.code, ← Array.length_toList, List.take_length_add_append, List.mem_append,
    Array.mem_toList_iff]
  rcases hw with hw | ⟨j, hj, hw⟩
  · exact .inl hw
  · rw [← Array.getElem?_toList, ← List.getElem?_take_of_lt hj] at hw
    exact .inr (List.mem_of_getElem? hw)

namespace Contained

/-- Without values there are no operands. -/
theorem empty (c : Code) : empty.Contained c :=
  ⟨wellFormed_empty.regular, fun _ _ hv => (nomatch hv), fun _ _ _ hv => (nomatch hv),
    fun _ _ ht => (nomatch ht), fun _ _ hp => (nomatch hp)⟩

theorem foldl_ensure (h : g.Contained c) (os : List Int) :
    (os.foldl (fun g o => (g.ensure o).2) g).Contained c := by
  induction os generalizing g with
  | nil => exact h
  | cons o os ih => exact ih (h.ensure o)

/-- The values in the body of a block are no phis. -/
theorem phi?_body (h : g.Contained c) (hu : (g.block b).body[k]? = some u) :
    (g.definition u).phi? = none := by
  cases h.body b k u hu with
  | plain expr phi _ _ =>
    rw [Definition.phi?, expr]
    split
    · rename_i p hp
      exact absurd (Option.some.inj hp) (phi p)
    · rfl
  | next expr _ _ => rw [Definition.phi?, expr]

/-- Contained graphs have local operands. -/
theorem operandsLocal (h : g.Contained c) : g.OperandsLocal c where
  stack b v hv := by
    obtain ⟨u, rfl, hu⟩ := h.stack b v hv
    obtain ⟨k, hk⟩ := Array.mem_iff_getElem?.1 hu
    exact ⟨u, rfl, mem_code_iff.2 (.inr hu), h.phi?_body hk⟩
  operands b n u hu hphi := by
    rcases getElem?_code hu with hslot | ⟨k, rfl, hbody⟩
    · obtain ⟨-, -, p, hp, -⟩ := h.regular.slotted b n u hslot
      rw [hphi] at hp
      cases hp
    · cases h.body b k u hbody with
      | plain expr _ _ operands =>
        exact ⟨_, expr, .inr fun v hv => mem_take_of_before (operands v hv)⟩
      | next expr _ _ => exact ⟨_, expr, .inl ⟨_, _, rfl⟩⟩
  terminator b t ht v hv := by
    obtain ⟨w, hw, hmem⟩ := mem_take_of_before (h.terminator b t ht v hv)
    exact ⟨w, hw, List.mem_of_mem_take hmem⟩
  next b n u args keywords hu hexpr := by
    rcases getElem?_code hu with hslot | ⟨k, rfl, hbody⟩
    · obtain ⟨-, -, p, hp, -⟩ := h.regular.slotted b n u hslot
      rw [expr_of_phi?_eq_some hp] at hexpr
      cases hexpr
    · cases h.body b k u hbody with
      | plain expr _ next _ =>
        cases expr.symm.trans hexpr
        exact absurd ⟨_, _, rfl⟩ next
      | next expr first heads =>
        cases expr.symm.trans hexpr
        subst first
        exact ⟨rfl, rfl, _, _, rfl, heads⟩
  incoming b u hu p hp i hi := by
    have hblock : (g.definition u).block = b := by
      rcases mem_code_iff.1 hu with hu | hu <;> obtain ⟨k, hk⟩ := Array.mem_iff_getElem?.1 hu
      · exact (h.regular.slotted b k u hk).2.1
      · cases (h.phi?_body hk).symm.trans hp
    exact hblock ▸ h.incoming u p hp i hi

end Contained

end Graph

end StackLift
