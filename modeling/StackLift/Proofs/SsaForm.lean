/-
# Values and dominance

The operands of a value stand before it in its block, and so do those of a terminator.  Only the
next element of an iterator is made of a value of another block, the header of the loop.  What flows
into a phi from a block is a value of that block.  So a graph is in static single assignment form
exactly if the headers of its loops dominate their bodies.

* `Flat.Causal` : the machine makes values from those that it made before;
* `Graph.InSsaForm` : values are made of what dominates them;
* `Lifter.inSsaForm_of_lift` : what a lift comes to in these terms.
-/
import StackLift.Proofs.Forgetting
import StackLift.Proofs.OneStack

namespace StackLift

/-! ## The machine makes values from earlier ones -/

namespace Flat

variable {f f' : Flat}

/-- Whether a token stands for something that was there before the value of number `n` of this
visit. -/
def Precedes (f : Flat) (n : Nat) (t : Token) : Prop := t.visit = f.visit → t.index < n

/-- Whether values of this visit are made from earlier ones. -/
structure Causal (f : Flat) : Prop where
  stack : ∀ t ∈ f.stack, f.Precedes f.made.length t
  made : ∀ (k : Nat) uses, f.made[k]? = some uses → ∀ t ∈ uses, f.Precedes k t
  left : ∀ t ∈ f.left, f.Precedes f.made.length t

theorem Precedes.mono {m n : Nat} {t : Token} (h : f.Precedes m t) (hle : m ≤ n) :
    f.Precedes n t := fun hvisit => Nat.lt_of_lt_of_le (h hvisit) hle

/-- Making a value from earlier ones. -/
theorem Causal.make (h : f.Causal) {uses : List Token}
    (huses : ∀ t ∈ uses, f.Precedes f.made.length t) : (f.make uses).Causal := by
  have hlength : (f.make uses).made.length = f.made.length + 1 := by simp [Flat.make]
  refine ⟨fun t ht => ?_, fun k ts hk t ht => ?_, fun t ht => ?_⟩
  · rw [hlength]
    rcases List.mem_cons.1 ht with rfl | ht
    · exact fun _ => Nat.lt_succ_self _
    · exact Precedes.mono (h.stack t ht) (Nat.le_succ _)
  · change (f.made ++ [uses])[k]? = some ts at hk
    rcases Nat.lt_trichotomy k f.made.length with hlt | rfl | hgt
    · rw [List.getElem?_append_left hlt] at hk
      exact h.made k ts hk t ht
    · rw [List.getElem?_append_right (Nat.le_refl _), Nat.sub_self] at hk
      cases hk
      exact huses t ht
    · rw [List.getElem?_eq_none (by simp; omega)] at hk
      cases hk
  · rw [hlength]
    exact Precedes.mono (h.left t ht) (Nat.le_succ _)

/-- Dropping values and leaving the block with some. -/
theorem Causal.leave (h : f.Causal) {stack left : List Token} (hstack : ∀ t ∈ stack, t ∈ f.stack)
    (hleft : ∀ t ∈ left, t ∈ f.stack ∨ t ∈ f.left) : { f with stack, left }.Causal :=
  ⟨fun t ht => h.stack t (hstack t ht), h.made,
    fun t ht => (hleft t ht).elim (h.stack t) (h.left t)⟩

theorem Causal.step (h : f.Causal) {i : Instruction} (hstep : f.step i = some f') :
    f'.Causal ∧ f'.visit = f.visit := by
  cases moves_of_step hstep with
  | stay => exact ⟨h, rfl⟩
  | @make n _ _ _ huses =>
    have hdrop : { f with stack := f.stack.drop n }.Causal :=
      h.leave (fun t => List.mem_of_mem_drop) fun t ht => .inr ht
    exact ⟨hdrop.make fun t ht => h.stack t (huses t ht), rfl⟩
  | header _ hv =>
    have hmake := h.make fun t ht => h.stack t (List.mem_singleton.1 ht ▸ List.mem_of_head? hv)
    refine ⟨hmake.leave (fun t => List.mem_cons_of_mem _) fun t ht => .inl ?_, rfl⟩
    exact List.mem_singleton.1 ht ▸ List.mem_cons_self
  | leave pops hv =>
    refine ⟨h.leave (fun t ht => ?_) fun t ht => .inl ?_, rfl⟩
    · cases pops with
      | true => exact List.mem_of_mem_tail ht
      | false => exact ht
    · exact List.mem_singleton.1 ht ▸ List.mem_of_head? hv

theorem Causal.foldlM (h : f.Causal) {run : List Instruction}
    (hrun : run.foldlM Flat.step f = some f') : f'.Causal ∧ f'.visit = f.visit := by
  induction run generalizing f with
  | nil =>
    cases hrun
    exact ⟨h, rfl⟩
  | cons i run ih =>
    rw [List.foldlM_cons] at hrun
    obtain ⟨f₁, hstep, hrun⟩ := Option.bind_eq_some_iff.1 hrun
    obtain ⟨h₁, hvisit₁⟩ := h.step hstep
    obtain ⟨h', hvisit⟩ := ih h₁ hrun
    exact ⟨h', hvisit.trans hvisit₁⟩

theorem Causal.enter (h : f.Causal) (args : List String) (looped : Bool) :
    (f.enter args looped).Causal ∧ (f.enter args looped).visit = f.visit := by
  have hargs : ∀ f : Flat, f.Causal → (args.foldl (fun f _ => f.make []) f).Causal ∧
      (args.foldl (fun f _ => f.make []) f).visit = f.visit := by
    induction args with
    | nil => exact fun f hf => ⟨hf, rfl⟩
    | cons a args ih => exact fun f hf => ih (f.make []) (hf.make (by simp))
  obtain ⟨hcausal, hvisit⟩ := hargs f h
  unfold Flat.enter
  cases looped with
  | true =>
    refine ⟨hcausal.make fun t ht => ?_, hvisit⟩
    exact hcausal.stack t (List.mem_of_mem_take ht)
  | false => exact ⟨hcausal, hvisit⟩

/-- At a visit of a block, values are made from earlier ones. -/
theorem Causal.runBlock (h : f.Causal) {args : List String} {looped : Bool}
    {run : List Instruction} (hrun : f.runBlock args looped run = some f') :
    f'.Causal ∧ f'.visit = f.visit := by
  obtain ⟨henter, hvisit⟩ := h.enter args looped
  obtain ⟨h', hvisit'⟩ := henter.foldlM hrun
  exact ⟨h', hvisit'.trans hvisit⟩

end Flat

/-! ## Operands stand before what is made of them -/

theorem exists_of_mem_left {α β : Type} {R : α → β → Prop} {l : List α} {m : List β} {x : α}
    (h : List.Forall₂ R l m) (hx : x ∈ l) : ∃ y ∈ m, R x y := by
  induction h with
  | nil => cases hx
  | cons hxy _ ih =>
    rcases List.mem_cons.1 hx with rfl | hx
    · exact ⟨_, List.mem_cons_self, hxy⟩
    · obtain ⟨y, hy, hxy⟩ := ih hx
      exact ⟨y, List.mem_cons_of_mem _ hy, hxy⟩

namespace Graph

variable {c : Code} {done : List Int} {g : Graph} {a b : BlockId} {k : Nat}

/-- Whether an operand is a phi of a block or one of its first `k` values. -/
def Before (g : Graph) (b : BlockId) (k : Nat) (v : Operand) : Prop :=
  ∃ u, v = some u ∧ (u ∈ (g.block b).phis ∨ ∃ j < k, (g.block b).body[j]? = some u)

/-- An operand that stands for an earlier token stands before a value. -/
theorem before_of_denotes {f : Flat} {entry : List Token} {v : Operand} {t : Token}
    (h : (g.block b).Denotes f.visit entry v t) (ht : f.Precedes k t) : g.Before b k v := by
  obtain ⟨u, rfl, ⟨j, hj, rfl⟩ | ⟨j, hj, -⟩⟩ := h
  · exact ⟨u, rfl, .inr ⟨j, ht rfl, hj⟩⟩
  · exact ⟨u, rfl, .inl (Array.mem_of_getElem? hj)⟩

theorem before_of_forall₂ {f : Flat} {entry : List Token} {vs : List Operand} {ts : List Token}
    (h : List.Forall₂ ((g.block b).Denotes f.visit entry) vs ts)
    (hts : ∀ t ∈ ts, f.Precedes k t) : ∀ v ∈ vs, g.Before b k v := by
  intro v hv
  obtain ⟨t, ht, hvt⟩ := exists_of_mem_left h hv
  exact before_of_denotes hvt (hts t ht)

/-- The operands of a block that was walked stand before what is made of them, but for the next
element of an iterator. -/
structure Local (g : Graph) (b : BlockId) (looped : Bool) (t : Terminator)
    (iterator : Option Operand) : Prop where
  body : ∀ (k : Nat) v, (looped = true → k ≠ 0) → (g.block b).body[k]? = some v →
    ∃ e, (g.definition v).expr = some e ∧ ∀ u ∈ e.operands, g.Before b k u
  terminator : ∀ u ∈ t.operands, g.Before b (g.block b).body.size u
  stack : ∀ u ∈ (g.block b).stack, g.Before b (g.block b).body.size u
  iterator : ∀ u, iterator = some u → g.Before b (g.block b).body.size u

theorem LeftBy.local {i : Instruction} {t : Terminator} {iterator : Option Operand}
    (h : g.LeftBy c done b i t iterator) :
    g.Local b (c.isLoopBody done (g.offset b)) t iterator := by
  -- the entry slots hold tokens of another visit
  have hbegin : Flat.Causal ⟨1, List.replicate (g.block b).phis.size ⟨0, 0⟩, [], []⟩ := by
    refine ⟨fun t ht hvisit => ?_, by simp, by simp⟩
    rw [List.eq_of_mem_replicate ht] at hvisit
    cases hvisit
  obtain ⟨f, hf, hmirrors, hops, hiterator⟩ :=
    (h.finishes 1 (List.replicate (g.block b).phis.size ⟨0, 0⟩)).1 (by simp)
  obtain ⟨hcausal, hvisit⟩ := hbegin.runBlock hf
  have hvisit : 1 = f.visit := hvisit.symm
  have hcount := hmirrors.count
  obtain ⟨top, hstack, hall⟩ := hmirrors.stack
  rw [hvisit] at hall hops hiterator
  refine ⟨fun k v hk hv => ?_, fun u hu => ?_, ?_, fun u hu => ?_⟩
  · have hlt : k < f.made.length := hcount ▸ (Array.getElem?_eq_some_iff.1 hv).1
    obtain ⟨e, he, huses⟩ := hmirrors.made k v _ hk hv (List.getElem?_eq_getElem hlt)
    rw [hvisit] at huses
    exact ⟨e, he, before_of_forall₂ huses (hcausal.made k _ (List.getElem?_eq_getElem hlt))⟩
  · rcases hops with rfl | hops
    · cases hu
    · rw [← hcount]
      exact before_of_forall₂ hops hcausal.left u hu
  · rw [← hcount]
    exact before_of_forall₂ hall fun t ht => hcausal.stack t (hstack ▸ List.mem_append_left _ ht)
  · obtain ⟨t, rest, hstack', hdenotes⟩ := hiterator u hu
    rw [← hcount]
    exact before_of_denotes hdenotes (hcausal.stack t (hstack' ▸ List.mem_cons_self))

/-! ## Static single assignment form -/

/-- Whether an operand of the value of number `k` of a block comes from where it may: from before it
in the block, or from another block that dominates this one. -/
def Available (g : Graph) (d : Dominators) (b : BlockId) (k : Nat) (v : Operand) : Prop :=
  g.Before b k v ∨
    ∃ u a, v = some u ∧ a ≠ b ∧ u ∈ (g.block a).code ∧ d.dominates a b = true

/-- Whether the operands of values, of terminators and of phis come from where they may.  The first
values of the blocks `exempt` are left out. -/
structure InSsaForm (g : Graph) (d : Dominators) (exempt : BlockId → Prop) : Prop where
  body : ∀ b ∈ g.live, ∀ (k : Nat) v, (k = 0 → ¬ exempt b) → (g.block b).body[k]? = some v →
    ∃ e, (g.definition v).expr = some e ∧ ∀ u ∈ e.operands, g.Available d b k u
  terminator : ∀ b ∈ g.live, ∀ t, (g.block b).terminator = some t →
    ∀ u ∈ t.operands, g.Available d b (g.block b).body.size u
  phi : ∀ b ∈ g.live, ∀ v ∈ (g.block b).phis, ∃ p, (g.definition v).phi? = some p ∧
    ∀ i ∈ p.incomings, ∃ u a, i.value = some u ∧ u ∈ (g.block a).code ∧
      d.dominates a i.block = true

/-- Whether the first value of the body of a loop is the next element of an iterator that the header
holds. -/
def TakesNext (g : Graph) (a b : BlockId) : Prop :=
  ∃ v u, (g.block b).body[0]? = some v ∧ u ∈ (g.block a).code ∧
    (g.definition v).expr = some (.call (some (.operator .iterNext)) [some u] [])

theorem mem_code_of_before {v : Operand} (h : g.Before b k v) :
    ∃ u, v = some u ∧ u ∈ (g.block b).code := by
  obtain ⟨u, rfl, hu | ⟨j, -, hu⟩⟩ := h
  · exact ⟨u, rfl, List.mem_append_left _ (Array.mem_toList_iff.2 hu)⟩
  · exact ⟨u, rfl, List.mem_append_right _ (Array.mem_toList_iff.2 (Array.mem_of_getElem? hu))⟩

/-- A value stands in one block only. -/
theorem Typed.block_of_mem_code (h : g.Typed) {u : ValueId} (hu : u ∈ (g.block b).code) :
    (g.definition u).block = b := by
  rcases List.mem_append.1 hu with hu | hu
  · obtain ⟨k, hk⟩ := Array.mem_iff_getElem?.1 (Array.mem_toList_iff.1 hu)
    exact (h.phi b k u hk).2.1
  · obtain ⟨k, hk⟩ := Array.mem_iff_getElem?.1 (Array.mem_toList_iff.1 hu)
    exact (h.body b k u hk).2.1

/-- If a loop is in this form, its header dominates its body. -/
theorem InSsaForm.dominates_of_takesNext {d : Dominators} (h : g.InSsaForm d fun _ => False)
    (htyped : g.Typed) (hb : b ∈ g.live) (hne : a ≠ b) (hnext : g.TakesNext a b) :
    d.dominates a b = true := by
  obtain ⟨v, u, hv, hu, hexpr⟩ := hnext
  have hblock := htyped.block_of_mem_code hu
  obtain ⟨e, he, hops⟩ := h.body b hb 0 v (fun _ h => h) hv
  obtain rfl := Option.some.inj (he.symm.trans hexpr)
  rcases hops (some u) List.mem_cons_self with hbefore | ⟨u', a', hu', -, hmem, hdominates⟩
  · -- the operand is in the header, so it does not stand before the value
    obtain ⟨u', hu', hmem⟩ := mem_code_of_before hbefore
    cases hu'
    exact absurd (hblock.symm.trans (htyped.block_of_mem_code hmem)) hne
  · cases hu'
    rwa [hblock.symm.trans (htyped.block_of_mem_code hmem)]

end Graph

/-! ## Dominators that are kept -/

/-- Among the blocks that were walked, the dominators that are kept are the blocks on every walk. -/
theorem Graph.Traversed.dominates_iff {c : Code} {done : List Int} {g : Graph} {a b : BlockId}
    (h : g.Traversed c done) (hc : c.Sound) (ha : a ∈ g.live) (hao : g.offset a ∈ done)
    (hb : b ∈ g.live) (keepDead : Bool) :
    (g.keptDominators keepDead).dominates a b = true ↔ g.OnEveryWalk a b := by
  have hsolve := Dominators.dominates_solve_iff h.divided.wellFormed.ordered h.predsInside ha hb
  have hlives : a ∉ g.deadBlocks := fun hdead => ((h.mem_deadBlocks_iff hc a).1 hdead).2 hao
  unfold Graph.keptDominators
  split
  · exact hsolve
  · rw [Dominators.dominates_foldl_forget, decide_eq_true hlives, Bool.true_and, hsolve]

/-! ## Lifted graphs -/

/-- Whether a block ends with the header of a loop that has another block as its body. -/
def Lifter.LoopOf (s : Lifter) (a b : BlockId) : Prop :=
  a ∈ s.graph.live ∧ b ∈ s.graph.live ∧
    ∃ i ∈ s.stepsIn a, i.op.effect? = some .forLoop ∧ i.next = s.graph.offset b

instance (s : Lifter) (a b : BlockId) : Decidable (s.LoopOf a b) :=
  inferInstanceAs (Decidable (_ ∧ _ ∧ _))

namespace Lifter.Surveyed

variable {c : Code} {done : List Int} {g : Graph} {s : Lifter} {a b : BlockId} {k : Nat}

/-- What was stepped in a block is in its run. -/
theorem mem_blockRun_of_mem_stepsIn (h : Surveyed c done g s) {i : Instruction}
    (hi : i ∈ s.stepsIn b) : g.offset b ∈ done ∧ i ∈ c.blockRun (g.offset b) := by
  obtain ⟨⟨name, j⟩, hj, rfl⟩ := List.mem_map.1 hi
  obtain ⟨hj, hname⟩ := List.mem_filter.1 hj
  rw [h.steps_eq] at hj
  obtain ⟨o, ho, hj⟩ := List.mem_flatMap.1 hj
  obtain ⟨j', hj, heq⟩ := List.mem_map.1 hj
  cases heq
  have hname : blockName o = blockName (s.graph.offset b) := beq_iff_eq.1 hname
  obtain rfl : o = g.offset b := (blockName_inj hname).trans (h.offset_eq b)
  exact ⟨ho, hj⟩

/-- What stands before a value does so after the phis are completed. -/
theorem before (h : Surveyed c done g s) {v : Operand} (hv : g.Before b k v) :
    s.graph.Before b k v := by
  obtain ⟨u, rfl, hu | hu⟩ := hv
  · obtain ⟨j, hj⟩ := Array.mem_iff_getElem?.1 hu
    exact ⟨u, rfl, .inl (Array.mem_of_getElem? (h.phis_mono hj))⟩
  · refine ⟨u, rfl, .inr ?_⟩
    rwa [h.body_eq]

/-- A block that was walked is left with its own values. -/
theorem mem_code_of_exit? (h : Surveyed c done g s) (hb : b ∈ g.live) (ho : g.offset b ∈ done)
    {x : Operand} (hx : s.graph.exit? b k = some x) :
    ∃ u, x = some u ∧ u ∈ (s.graph.block b).code := by
  obtain ⟨phis, hblock⟩ := h.block_eq b
  unfold Graph.exit? at hx
  dsimp only at hx
  split at hx
  · obtain ⟨i, t, iterator, hleft⟩ := h.traversed.walked hb ho
    rw [hblock] at hx
    exact Graph.mem_code_of_before (h.before (hleft.local.stack x (List.mem_of_getElem? hx)))
  · obtain ⟨v, hv, rfl⟩ := Option.map_eq_some_iff.1 hx
    exact ⟨v, rfl, List.mem_append_left _ (Array.mem_toList_iff.2 (Array.mem_of_getElem? hv))⟩

/-- What flows into a phi is a value of the block that it flows in from. -/
theorem mem_code_of_incoming (h : Surveyed c done g s) {v : ValueId}
    (hv : v ∈ (s.graph.block b).phis) :
    ∃ p, (s.graph.definition v).phi? = some p ∧ ∀ i ∈ p.incomings, i.block ∈ g.live ∧
      g.offset i.block ∈ done ∧ ∃ u, i.value = some u ∧ u ∈ (s.graph.block i.block).code := by
  obtain ⟨k, hk⟩ := Array.mem_iff_getElem?.1 hv
  obtain ⟨-, hblock, p, hp, -⟩ := h.feeding.typed.phi b k v hk
  refine ⟨p, hp, fun i hi => ?_⟩
  have hflows := h.feeding.flows v p hp
  rw [Graph.Flows, hblock] at hflows
  split at hflows
  · obtain ⟨q, hq, hfrom, hexit⟩ := exists_of_mem_left hflows.2.flip hi
    obtain rfl : i.block = q := hfrom
    rw [h.feeding.preds_eq, Graph.kept_eq] at hq
    obtain ⟨hlive, hdone⟩ := h.traversed.walked_of_mem_preds hq
    exact ⟨hlive, hdone, h.mem_code_of_exit? hlive hdone hexit⟩
  · rw [hflows] at hi
    cases hi

/-- But for the next element of an iterator, the operands of a value stand before it. -/
theorem operands_before (h : Surveyed c done g s) (hb : b ∈ g.live) {v : ValueId}
    (hfirst : c.isLoopBody done (g.offset b) = true → k ≠ 0)
    (hv : (s.graph.block b).body[k]? = some v) :
    ∃ e, (s.graph.definition v).expr = some e ∧ ∀ u ∈ e.operands, s.graph.Before b k u := by
  rw [h.body_eq] at hv
  by_cases ho : g.offset b ∈ done
  · obtain ⟨i, t, iterator, hleft⟩ := h.traversed.walked hb ho
    obtain ⟨e, he, hops⟩ := hleft.local.body k v hfirst hv
    obtain ⟨hlt, -, hphi⟩ := h.traversed.divided.wellFormed.typed.body b k v hv
    exact ⟨e, by rw [h.definition_eq hlt hphi, he], fun u hu => h.before (hops u hu)⟩
  · -- a block that was not walked has no value of its own
    have hunwalked := h.traversed.divided.unwalked b hb (by simp) ho
    cases hloop : c.isLoopBody done (g.offset b) with
    | false =>
      rw [(hunwalked.fresh hloop).1] at hv
      cases hv
    | true =>
      obtain ⟨u, hbody, -⟩ := hunwalked.primed hloop
      obtain ⟨hlt, -⟩ := Array.getElem?_eq_some_iff.1 hv
      rw [hbody] at hlt
      exact absurd (Nat.lt_one_iff.1 hlt) (hfirst hloop)

/-- The operands of a terminator are values of its block. -/
theorem terminator_before (h : Surveyed c done g s) (hb : b ∈ g.live) {t : Terminator}
    (ht : (s.graph.block b).terminator = some t) :
    ∀ u ∈ t.operands, s.graph.Before b (s.graph.block b).body.size u := by
  obtain ⟨phis, hblock⟩ := h.block_eq b
  have ht : (g.block b).terminator = some t := by
    rw [hblock] at ht
    exact ht
  by_cases ho : g.offset b ∈ done
  · obtain ⟨i, t', iterator, hleft⟩ := h.traversed.walked hb ho
    obtain rfl : t' = t := Option.some.inj (hleft.terminator_eq.symm.trans ht)
    intro u hu
    rw [h.body_eq]
    exact h.before (hleft.local.terminator u hu)
  · rw [(h.traversed.divided.unwalked b hb (by simp) ho).terminator_eq] at ht
    cases ht

end Lifter.Surveyed

namespace Lifter.Lifted

open Surveyed

variable {c : Code} {done : List Int} {g : Graph} {s : Lifter} {a b : BlockId}

/-- The body of a loop begins with the next element of an iterator of the header, which is another
block. -/
theorem takesNext_of_loop (h : Lifted c done g s) (hc : c.Sound) (hloop : s.LoopOf a b) :
    a ≠ b ∧ s.graph.TakesNext a b := by
  obtain ⟨ha, hb, i, hi, hfor, hnext⟩ := hloop
  obtain ⟨hao, hi⟩ := h.mem_blockRun_of_mem_stepsIn hi
  rw [h.offset_eq] at hnext
  constructor
  · rintro rfl
    exact Int.ne_of_lt (hc.lt_next_of_mem_runFrom hi) hnext.symm
  · obtain ⟨j, t, iterator, hleft⟩ := h.traversed.walked ((h.mem_live_iff hc a).1 ha).1 hao
    obtain ⟨v, u, rfl, hu, hexpr⟩ :=
      h.body_of_header hc hleft hi hfor ((h.mem_live_iff hc b).1 hb).1 hnext
    obtain ⟨w, rfl, hw⟩ := Graph.mem_code_of_before (h.before (hleft.local.iterator v rfl))
    exact ⟨u, w, hu, hw, hexpr⟩

/-- A block that is the body of a loop has a header. -/
theorem exists_loop (h : Lifted c done g s) (hc : c.Sound) (hb : b ∈ s.graph.live)
    (hloop : c.isLoopBody done (g.offset b) = true) : ∃ a, s.LoopOf a b := by
  obtain ⟨p, hp, i, hi, hfor, hnext⟩ := (Code.isLoopBody_iff ..).1 hloop
  obtain ⟨a, ha, rfl, -⟩ := h.traversed.divided.walked p hp
  refine ⟨a, (h.mem_live_iff hc a).2 ⟨ha, .inr hp⟩, hb, i, ?_, hfor, ?_⟩
  · rwa [h.stepsIn_eq hp]
  · rwa [h.offset_eq]

/-- A graph is in static single assignment form where the headers of loops dominate the bodies. -/
theorem inSsaForm (h : Lifted c done g s) (hc : c.Sound) {d : Dominators}
    (hd : s.dominators = some d) {exempt : BlockId → Prop}
    (hloops : ∀ a b, s.LoopOf a b → ¬ exempt b → d.dominates a b = true) :
    s.graph.InSsaForm d exempt := by
  obtain rfl : g.keptDominators s.options.keepDead = d :=
    Option.some.inj (h.dominators_eq.symm.trans hd)
  have hlive : ∀ {b}, b ∈ s.graph.live → b ∈ g.live := fun hb => ((h.mem_live_iff hc _).1 hb).1
  refine ⟨fun b hb k v hexempt hv => ?_, fun b hb t ht u hu => ?_, fun b hb v hv => ?_⟩
  · by_cases hfirst : k = 0 ∧ c.isLoopBody done (g.offset b) = true
    · -- the operand of this value is in the header
      obtain ⟨rfl, hloop⟩ := hfirst
      obtain ⟨a, hloop⟩ := h.exists_loop hc hb hloop
      obtain ⟨hne, v', u, hv', hu, hexpr⟩ := h.takesNext_of_loop hc hloop
      obtain rfl : v' = v := Option.some.inj (hv'.symm.trans hv)
      refine ⟨_, hexpr, fun x hx => .inr ⟨u, a, ?_, hne, hu, hloops a b hloop (hexempt rfl)⟩⟩
      exact List.mem_singleton.1 hx
    · obtain ⟨e, he, hops⟩ :=
        h.operands_before (hlive hb) (fun hloop hk => hfirst ⟨hk, hloop⟩) hv
      exact ⟨e, he, fun u hu => .inl (hops u hu)⟩
  · exact .inl (h.terminator_before (hlive hb) ht u hu)
  · obtain ⟨p, hp, hall⟩ := h.mem_code_of_incoming hv
    refine ⟨p, hp, fun i hi => ?_⟩
    obtain ⟨hq, hqo, u, hu, hcode⟩ := hall i hi
    exact ⟨u, i.block, hu, hcode,
      (h.traversed.dominates_iff hc hq hqo hq _).2 (g.onEveryWalk_refl _)⟩

end Lifter.Lifted

/-- In a lifted graph all operands come from where they may, but for the iterators of loops with a
header that does not dominate the body.  So it is in static single assignment form exactly if it has
no such loop. -/
theorem Lifter.inSsaForm_of_lift {l : Listing} {c : Code} {options : LiftOptions} {s : Lifter}
    (hsize : l.IsAddressable) (hbuild : l.build = .ok c)
    (hlift : (Lifter.ofCode c options).lift = .ok () s) :
    ∃ d, s.dominators = some d ∧
      s.graph.InSsaForm d (fun b => ∃ a, s.LoopOf a b ∧ d.dominates a b = false) ∧
      (∀ a b, s.LoopOf a b → s.graph.TakesNext a b) ∧
      (s.graph.InSsaForm d (fun _ => False) ↔ ∀ a b, s.LoopOf a b → d.dominates a b = true) := by
  have hc := Listing.sound_of_build hsize hbuild
  obtain ⟨-, done, g, h⟩ := Lifter.lift_ok hc hlift
  refine ⟨_, h.dominators_eq, h.inSsaForm hc h.dominators_eq fun a b hloop hnot => ?_,
    fun a b hloop => (h.takesNext_of_loop hc hloop).2, fun hform a b hloop => ?_, fun hall => ?_⟩
  · exact Bool.eq_true_of_not_eq_false fun hno => hnot ⟨a, hloop, hno⟩
  · obtain ⟨hne, hnext⟩ := h.takesNext_of_loop hc hloop
    exact hform.dominates_of_takesNext h.feeding.typed hloop.2.1 hne hnext
  · exact h.inSsaForm hc h.dominators_eq fun a b hloop _ => hall a b hloop

/-- The header of this loop dominates its body. -/
theorem Lifter.inSsaForm_loop : Listing.loop.IsAddressable ∧ ∃ c s d, Listing.loop.build = .ok c ∧
    (Lifter.ofCode c {}).lift = .ok () s ∧ s.dominators = some d ∧ s.LoopOf 0 4 ∧
    s.graph.TakesNext 0 4 ∧ s.graph.InSsaForm d (fun _ => False) := by
  have hlifts : Listing.loop.lifts (fun s => s.LoopOf 0 4 ∧ ∀ a ∈ s.graph.live,
      ∀ b ∈ s.graph.live, s.LoopOf a b → ∃ d ∈ s.dominators, d.dominates a b = true) = true := by
    simp only [Listing.lifts, Lifter.lift, Lift.all, Code.getElem?_index]
    decide +kernel
  obtain ⟨c, s, hbuild, hlift, hcheck⟩ := Listing.exists_of_lifts hlifts
  obtain ⟨hloop, hall⟩ := of_decide_eq_true hcheck
  have hsize : Listing.loop.IsAddressable := by decide +kernel
  obtain ⟨d, hd, -, hnext, hiff⟩ := Lifter.inSsaForm_of_lift hsize hbuild hlift
  refine ⟨hsize, c, s, d, hbuild, hlift, hd, hloop, hnext 0 4 hloop, hiff.2 fun a b hab => ?_⟩
  obtain ⟨d', hd', hdominates⟩ := hall a hab.1 b hab.2.1 hab
  rw [hd] at hd'
  cases hd'
  exact hdominates

/-- A loop that is entered at its header and in its body. -/
def Listing.twoEntries : Listing where
  args := ["x"]
  code := "LOAD_FAST 0\nPOP_JUMP_IF_TRUE body\nhead:\nFOR_ITER end\nbody:\nJUMP_ABSOLUTE head\n" ++
    "end:\nRETURN_VALUE\n"

/-- In the body of a loop that is entered in two places there is an iterator of the header, which
does not dominate it. -/
theorem Lifter.not_inSsaForm_twoEntries : Listing.twoEntries.IsAddressable ∧
    ∃ c s d, Listing.twoEntries.build = .ok c ∧ (Lifter.ofCode c {}).lift = .ok () s ∧
      s.dominators = some d ∧ ¬ s.graph.InSsaForm d (fun _ => False) := by
  have hlifts : Listing.twoEntries.lifts (fun s => s.LoopOf 0 1 ∧
      ∃ d ∈ s.dominators, d.dominates 0 1 = false) = true := by
    simp only [Listing.lifts, Lifter.lift, Lift.all, Code.getElem?_index]
    decide +kernel
  obtain ⟨c, s, hbuild, hlift, hcheck⟩ := Listing.exists_of_lifts hlifts
  obtain ⟨hloop, d, hd, hdominates⟩ := of_decide_eq_true hcheck
  have hsize : Listing.twoEntries.IsAddressable := by decide +kernel
  have hc := Listing.sound_of_build hsize hbuild
  obtain ⟨-, done, g, h⟩ := Lifter.lift_ok hc hlift
  refine ⟨hsize, c, s, d, hbuild, hlift, hd, fun hform => ?_⟩
  obtain ⟨hne, hnext⟩ := h.takesNext_of_loop hc hloop
  have hyes := hform.dominates_of_takesNext h.feeding.typed hloop.2.1 hne hnext
  rw [hdominates] at hyes
  cases hyes

end StackLift
