/-
# The hand-off form of a compiled function is closed

A lifted graph can always be handed over.  The blocks that are left out hold no values and have no
edges, and of the others all values and the terminator are known.  So what is handed over refers to
nothing but itself.

* `Graph.Deliverable` : what that needs of a graph;
* `Handoff.functionOf` : what is handed over, where nothing is missing;
* `Handoff.Function.IsClosed` : what holds of it;
* `Lifter.isClosed_of_compile` : it holds for every function that is compiled.
-/
import Mathlib.Data.List.Nodup
import StackLift.Handoff.Flatten
import StackLift.Proofs.SsaForm

namespace StackLift

/-! ## Graphs that can be handed over -/

/-- All values that a value is made of, those that flow into a phi among them. -/
def Expr.inputs : Expr → List Operand
  | .phi p => p.incomings.map (·.value)
  | e => e.operands

namespace Graph

/-- The blocks that are handed over. -/
def handedOver (g : Graph) : List BlockId := g.live.filter fun b => Handoff.isKept (g.block b)

/-- Whether an operand is a value of a block that is handed over. -/
def Supplies (g : Graph) (v : Operand) : Prop :=
  ∃ u a, v = some u ∧ a ∈ g.handedOver ∧ u ∈ (g.block a).code

/-- Whether nothing is missing from the blocks that are handed over, and nothing leads out of
them. -/
structure Deliverable (g : Graph) : Prop where
  ordered : g.Ordered
  typed : g.Typed
  edge_iff : ∀ a b, b ∈ (g.block a).succs ↔ a ∈ (g.block b).preds
  preds : ∀ b, ∀ a ∈ (g.block b).preds, a ∈ g.handedOver
  succs : ∀ b, ∀ a ∈ (g.block b).succs, a ∈ g.handedOver
  code : ∀ b, ∀ v ∈ (g.block b).code, b ∈ g.handedOver
  values : ∀ b, ∀ v ∈ (g.block b).code,
    ∃ e, (g.definition v).expr = some e ∧ ∀ u ∈ e.inputs, g.Supplies u
  terminators : ∀ b ∈ g.handedOver, ∃ t, (g.block b).terminator = some t ∧
    (g.block b).succs = t.targets.eraseDups ∧ ∀ u ∈ t.operands, g.Supplies u
  phis : ∀ b, ∀ v ∈ (g.block b).code, ∀ p, (g.definition v).phi? = some p →
    p.incomings.map (·.block) = (g.block b).preds

end Graph

namespace Graph.Traversed

variable {c : Code} {done : List Int} {g : Graph} {b : BlockId}

/-- The body of a loop, the header of which was walked, was walked too. -/
theorem mem_done_of_isLoopBody (h : g.Traversed c done) (hc : c.Sound) {o : Int}
    (hloop : c.isLoopBody done o = true) : o ∈ done := by
  obtain ⟨p, hp, i, hi, hfor, rfl⟩ := (Code.isLoopBody_iff ..).1 hloop
  obtain ⟨a, -, rfl, j, t, iterator, hleft⟩ := h.divided.walked p hp
  obtain rfl : j = i :=
    Option.some.inj (hleft.last.symm.trans (hc.getLast?_of_forLoop hi hfor))
  -- the header goes on to the body, and all that a walked block goes on to was walked
  have hnext : j.next ∈ j.successors := by
    rw [Instruction.successors, Opcode.flow_eq_of_effect? hfor]
    exact List.mem_cons_of_mem _ List.mem_cons_self
  obtain ⟨x, hx, hoffset⟩ := (hleft.successors j.next).2 hnext
  rw [← hoffset]
  apply h.succs_done a x
  rw [hleft.succs_eq]
  exact List.mem_eraseDups.2 hx

/-- A block with values was walked. -/
theorem walked_of_mem_body (h : g.Traversed c done) (hc : c.Sound) {v : ValueId}
    (hv : v ∈ (g.block b).body) : b ∈ g.live ∧ g.offset b ∈ done := by
  have hb : b ∈ g.live := by
    refine (h.divided.wellFormed.mem_live_iff b).2 (Nat.lt_of_not_le fun hle => ?_)
    rw [block_of_size_le hle] at hv
    exact Array.not_mem_empty v hv
  refine ⟨hb, ?_⟩
  by_contra hnot
  -- a block that was not walked may have a value if it is the body of a loop, but then it was
  have hloop : c.isLoopBody done (g.offset b) = false :=
    Bool.eq_false_iff.2 fun hloop => hnot (h.mem_done_of_isLoopBody hc hloop)
  rw [((h.divided.unwalked b hb (by simp) hnot).fresh hloop).1] at hv
  exact Array.not_mem_empty v hv

end Graph.Traversed

namespace Lifter.Lifted

variable {c : Code} {done : List Int} {g : Graph} {s : Lifter} {a b : BlockId}

theorem terminator_eq (h : Lifted c done g s) (b : BlockId) :
    (s.graph.block b).terminator = (g.block b).terminator := by
  obtain ⟨phis, hblock⟩ := h.block_eq b
  rw [hblock]

theorem preds_eq (h : Lifted c done g s) (b : BlockId) :
    (s.graph.block b).preds = (g.block b).preds := by
  obtain ⟨phis, hblock⟩ := h.block_eq b
  rw [hblock]

/-- The blocks that were walked are handed over, and no others. -/
theorem mem_handedOver_iff (h : Lifted c done g s) (hc : c.Sound) (b : BlockId) :
    b ∈ s.graph.handedOver ↔ b ∈ g.live ∧ g.offset b ∈ done := by
  rw [Graph.handedOver, List.mem_filter, h.mem_live_iff hc, Handoff.isKept, Bool.or_eq_true,
    Block.isTerminated, h.terminator_eq]
  constructor
  · rintro ⟨⟨hb, -⟩, hkept⟩
    refine ⟨hb, ?_⟩
    by_contra hnot
    have hunwalked := h.traversed.divided.unwalked b hb (by simp) hnot
    rw [hunwalked.terminator_eq] at hkept
    have hpreds : (g.block b).preds = [] := by
      refine List.eq_nil_iff_forall_not_mem.2 fun p hp => hnot ?_
      exact h.traversed.succs_done p b ((h.traversed.divided.wellFormed.edge_iff p b).2 hp)
    rw [Block.isDead, h.preds_eq, h.succs_eq, hpreds, hunwalked.succs_eq] at hkept
    exact hkept.elim Bool.noConfusion Bool.noConfusion
  · rintro ⟨hb, ho⟩
    obtain ⟨i, t, iterator, hleft⟩ := h.traversed.walked hb ho
    rw [hleft.terminator_eq]
    exact ⟨⟨hb, .inr ho⟩, .inl rfl⟩

/-- A block with values is handed over. -/
theorem handedOver_of_mem_code (h : Lifted c done g s) (hc : c.Sound) {v : ValueId}
    (hv : v ∈ (s.graph.block b).code) : b ∈ s.graph.handedOver := by
  rw [h.mem_handedOver_iff hc]
  rcases Graph.mem_code_iff.1 hv with hv | hv
  · have hblocks : (g.kept s.options.keepDead).blocks = g.blocks := by rw [Graph.kept_eq]
    exact h.traversed.walked_of_demands (Array.size_pos_of_mem hv)
      (.of_blocks_eq hblocks (h.feeding.demanded b))
  · rw [h.body_eq] at hv
    exact h.traversed.walked_of_mem_body hc hv

/-- What comes before a place in a block is supplied. -/
theorem supplies_of_before (h : Lifted c done g s) (hc : c.Sound) {k : Nat} {v : Operand}
    (hv : s.graph.Before b k v) : s.graph.Supplies v := by
  obtain ⟨u, rfl, hu⟩ := Graph.mem_code_of_before hv
  exact ⟨u, b, rfl, h.handedOver_of_mem_code hc hu, hu⟩

/-- All values are known, and made of values that are handed over. -/
theorem exists_inputs (h : Lifted c done g s) (hc : c.Sound) {v : ValueId}
    (hv : v ∈ (s.graph.block b).code) :
    ∃ e, (s.graph.definition v).expr = some e ∧ ∀ u ∈ e.inputs, s.graph.Supplies u := by
  obtain ⟨hb, ho⟩ := (h.mem_handedOver_iff hc b).1 (h.handedOver_of_mem_code hc hv)
  rcases Graph.mem_code_iff.1 hv with hv | hv
  · obtain ⟨p, hp, hall⟩ := h.mem_code_of_incoming hv
    refine ⟨_, Graph.expr_of_phi?_eq_some hp, fun u hu => ?_⟩
    obtain ⟨i, hi, rfl⟩ := List.mem_map.1 hu
    obtain ⟨-, -, u, hu, hcode⟩ := hall i hi
    exact ⟨u, i.block, hu, h.handedOver_of_mem_code hc hcode, hcode⟩
  · obtain ⟨k, hk⟩ := Array.mem_iff_getElem?.1 hv
    obtain ⟨-, -, hphi⟩ := h.feeding.typed.body b k v hk
    have hsupplies : ∃ e, (s.graph.definition v).expr = some e ∧
        ∀ u ∈ e.operands, s.graph.Supplies u := by
      by_cases hfirst : k = 0 ∧ c.isLoopBody done (g.offset b) = true
      · -- the operand of this value is in the header
        obtain ⟨rfl, hloop⟩ := hfirst
        obtain ⟨a, hloop⟩ := h.exists_loop hc ((h.mem_live_iff hc b).2 ⟨hb, .inr ho⟩) hloop
        obtain ⟨-, v', u, hv', hu, hexpr⟩ := h.takesNext_of_loop hc hloop
        obtain rfl : v' = v := Option.some.inj (hv'.symm.trans hk)
        refine ⟨_, hexpr, fun x hx => ?_⟩
        exact ⟨u, a, List.mem_singleton.1 hx, h.handedOver_of_mem_code hc hu, hu⟩
      · obtain ⟨e, he, hops⟩ :=
          h.operands_before hb (fun hloop hk => hfirst ⟨hk, hloop⟩) hk
        exact ⟨e, he, fun u hu => h.supplies_of_before hc (hops u hu)⟩
    obtain ⟨e, he, hops⟩ := hsupplies
    refine ⟨e, he, ?_⟩
    cases e with
    | phi p =>
      rw [Definition.phi?, he] at hphi
      cases hphi
    | _ => exact hops

/-- What flows into a phi comes from the predecessors, in their order. -/
theorem blocks_of_phi (h : Lifted c done g s) (hc : c.Sound) {v : ValueId}
    (hv : v ∈ (s.graph.block b).code) {p : Phi} (hp : (s.graph.definition v).phi? = some p) :
    p.incomings.map (·.block) = (s.graph.block b).preds := by
  obtain ⟨hb, ho⟩ := (h.mem_handedOver_iff hc b).1 (h.handedOver_of_mem_code hc hv)
  have hblock := h.feeding.typed.block_of_mem_code hv
  rcases Graph.mem_code_iff.1 hv with hv | hv
  · obtain ⟨k, hk⟩ := Array.mem_iff_getElem?.1 hv
    obtain ⟨q, hq, hcomplete⟩ := Graph.complete_of_verifyPhis h.verified
      ((h.mem_live_iff hc b).2 ⟨hb, .inr ho⟩) hk
    obtain rfl : q = p := Option.some.inj (hq.symm.trans hp)
    have hflows := h.feeding.flows v q hp
    rw [Graph.Flows, if_pos hcomplete, hblock] at hflows
    have hsame := hflows.2.imp fun a i hgives => hgives.1.symm
    rw [← List.forall₂_map_right_iff, List.forall₂_eq_eq_eq] at hsame
    exact hsame.symm
  · obtain ⟨k, hk⟩ := Array.mem_iff_getElem?.1 hv
    rw [(h.feeding.typed.body b k v hk).2.2] at hp
    cases hp

/-- A lifted graph can be handed over. -/
theorem deliverable (h : Lifted c done g s) (hc : c.Sound) : s.graph.Deliverable where
  ordered := h.ordered
  typed := h.feeding.typed
  edge_iff a b := by
    rw [h.succs_eq, h.preds_eq]
    exact h.traversed.divided.wellFormed.edge_iff a b
  preds b a ha := by
    rw [h.preds_eq] at ha
    exact (h.mem_handedOver_iff hc a).2 (h.traversed.walked_of_mem_preds ha)
  succs b a ha := by
    rw [h.succs_eq] at ha
    exact (h.mem_handedOver_iff hc a).2
      ⟨h.traversed.divided.wellFormed.succs_live b a ha, h.traversed.succs_done b a ha⟩
  code b v hv := h.handedOver_of_mem_code hc hv
  values b v hv := h.exists_inputs hc hv
  terminators b hb := by
    obtain ⟨hlive, ho⟩ := (h.mem_handedOver_iff hc b).1 hb
    obtain ⟨i, t, iterator, hleft⟩ := h.traversed.walked hlive ho
    have ht : (s.graph.block b).terminator = some t := by rw [h.terminator_eq, hleft.terminator_eq]
    refine ⟨t, ht, ?_, fun u hu => ?_⟩
    · rw [h.succs_eq, hleft.succs_eq]
    · exact h.supplies_of_before hc (h.terminator_before hlive ht u hu)
  phis b v hv p hp := h.blocks_of_phi hc hv hp

end Lifter.Lifted

/-! ## Handing over where nothing is missing -/

namespace Handoff

variable {g : Graph} {b : BlockId} {v : ValueId} {e : Expr} {t : Terminator}

/-- The number of a value that is there. -/
def idOf (v : Operand) : Int := (v.getD 0 : Nat)

/-- A keyword with a value that is there. -/
def keywordOf (k : StackLift.Keyword) : Keyword := { name := k.name, value := idOf k.value }

/-- What flows in from a block, with a value that is there. -/
def incomingOf (g : Graph) (i : StackLift.Incoming) : Incoming :=
  { block := g.offset i.block, value := idOf i.value }

/-- A value that is computed in a known way from values that are there. -/
def instOf (g : Graph) (v : ValueId) (e : Expr) : Inst :=
  let x : Inst := { id := v, line := (g.definition v).line }
  match e with
  | .arg index name => { x with kind := "arg", num := index, name }
  | .const .none => { x with kind := "none" }
  | .const c => { x with kind := "const", const := datum c }
  | .global name => { x with kind := "global", name }
  | .load name => { x with kind := "load", name }
  | .store name value => { x with kind := "store", name, value := idOf value }
  | .call callee args keywords =>
    let args := args.map idOf
    let keywords := keywords.map keywordOf
    match callee with
    | some (.operator o) => { x with kind := "call", callee := o.name, args, keywords }
    | some (.value v) => { x with kind := "call", calleeId := v, args, keywords }
    | none => x
  | .phi p => { x with kind := "phi", slot := p.slot, incomings := p.incomings.map (incomingOf g) }

/-- How a block is left, with an operand that is there. -/
def termOf (g : Graph) : Terminator → Term
  | .jump a => { kind := "jump", targets := [g.offset a] }
  | .branch cond a a' =>
    { kind := "branch", value := idOf cond, targets := [g.offset a, g.offset a'] }
  | .ret v => { kind := "ret", value := idOf v }
  | .retVoid => { kind := "retvoid" }

/-- A block from which nothing is missing. -/
def blockOf (g : Graph) (b : BlockId) : Block where
  offset := g.offset b
  preds := (g.block b).preds.map g.offset
  succs := (g.block b).succs.map g.offset
  insts := (g.block b).code.map fun v => (g.definition v).expr.elim { id := v } (instOf g v)
  term := (g.block b).terminator.elim {} (termOf g)

/-- A function from which nothing is missing. -/
def functionOf (name : String) (args : List String) (g : Graph) : Function where
  name := name
  args := args
  blocks := g.handedOver.map (blockOf g)

/-- A value that is there is handed over by its number. -/
theorem number_eq {v : Operand} (h : v.isSome = true) : number v = .ok (idOf v) := by
  cases v with
  | none => cases h
  | some v => rfl

/-- Where nothing fails, each element is replaced. -/
theorem mapM_eq_map {ε α β : Type} {f : α → Except ε β} {k : α → β} {l : List α}
    (h : ∀ a ∈ l, f a = .ok (k a)) : l.mapM f = .ok (l.map k) := by
  induction l with
  | nil => rfl
  | cons a l ih =>
    rw [List.mapM_cons, h a List.mem_cons_self, ih fun a ha => h a (List.mem_cons_of_mem _ ha)]
    rfl

/-- An expression with all its inputs is handed over. -/
theorem flattenExpr_eq (h : ∀ u ∈ e.inputs, u.isSome = true) :
    flattenExpr g { id := v, line := (g.definition v).line } (some e) = .ok (instOf g v e) := by
  cases e with
  | arg index name => rfl
  | const c => cases c <;> rfl
  | global name => rfl
  | load name => rfl
  | store name value =>
    rw [flattenExpr, number_eq (h value List.mem_cons_self)]
    rfl
  | call callee args keywords =>
    have hargs : args.mapM number = .ok (args.map idOf) := mapM_eq_map fun u hu =>
      number_eq (h u (List.mem_append_left _ (List.mem_append_right _ hu)))
    have hkeyword : ∀ k ∈ keywords, (do
        let value ← number k.value
        .ok { name := k.name, value } : Except (Stop Cause) Keyword) = .ok (keywordOf k) := by
      intro k hk
      rw [number_eq (h _ (List.mem_append_right _ (List.mem_map_of_mem hk)))]
      rfl
    cases callee with
    | none => exact absurd (h none List.mem_cons_self) Bool.noConfusion
    | some callee =>
      cases callee <;>
      · rw [flattenExpr, hargs, mapM_eq_map hkeyword]
        rfl
  | phi p =>
    have hincoming : ∀ i ∈ p.incomings, (do
        let value ← number i.value
        .ok { block := g.offset i.block, value } : Except (Stop Cause) Incoming) =
          .ok (incomingOf g i) := by
      intro i hi
      rw [number_eq (h _ (List.mem_map_of_mem hi))]
      rfl
    rw [flattenExpr, mapM_eq_map hincoming]
    rfl

/-- A terminator with all its operands is handed over. -/
theorem flattenTerminator_eq (h : ∀ u ∈ t.operands, u.isSome = true) :
    flattenTerminator g (some t) = .ok (termOf g t) := by
  cases t with
  | jump a => rfl
  | branch cond a a' =>
    rw [flattenTerminator, number_eq (h cond List.mem_cons_self)]
    rfl
  | ret v =>
    rw [flattenTerminator, number_eq (h v List.mem_cons_self)]
    rfl
  | retVoid => rfl

/-! ## Functions that refer to nothing but themselves -/

/-- The numbers of the values that a value is made of. -/
def Inst.uses (x : Inst) : List Int :=
  if x.kind = "store" then [x.value]
  else if x.kind = "call" then
    (if x.callee = "" then [x.calleeId] else []) ++ x.args ++ x.keywords.map (·.value)
  else if x.kind = "phi" then x.incomings.map (·.value)
  else []

/-- The numbers of the values with which a block is left. -/
def Term.uses (t : Term) : List Int := if t.kind = "branch" ∨ t.kind = "ret" then [t.value] else []

/-- The numbers of all values. -/
def Function.ids (f : Function) : List Int := f.blocks.flatMap fun b => b.insts.map (·.id)

/-- The offsets of all blocks. -/
def Function.offsets (f : Function) : List Int := f.blocks.map (·.offset)

/-- Whether a function with `count` values refers to nothing but its own values and blocks. -/
structure Function.IsClosed (f : Function) (count : Nat) : Prop where
  ascending : f.offsets.Pairwise (· < ·)
  term_kinds : ∀ b ∈ f.blocks, b.term.kind ∈ ["jump", "branch", "ret", "retvoid"]
  kinds : ∀ b ∈ f.blocks, ∀ x ∈ b.insts,
    x.kind ∈ ["arg", "none", "const", "global", "load", "store", "call", "phi"]
  ids_nodup : f.ids.Nodup
  mem_ids_iff : ∀ i, i ∈ f.ids ↔ 0 ≤ i ∧ i < count
  uses : ∀ b ∈ f.blocks, ∀ x ∈ b.insts, ∀ u ∈ x.uses, u ∈ f.ids
  term_uses : ∀ b ∈ f.blocks, ∀ u ∈ b.term.uses, u ∈ f.ids
  edges_inside : ∀ b ∈ f.blocks, ∀ o ∈ b.preds ++ b.succs ++ b.term.targets, o ∈ f.offsets
  incomings_inside : ∀ b ∈ f.blocks, ∀ x ∈ b.insts, ∀ i ∈ x.incomings, i.block ∈ f.offsets
  edge_iff : ∀ a ∈ f.blocks, ∀ b ∈ f.blocks, a.offset ∈ b.preds ↔ b.offset ∈ a.succs
  succs_eq : ∀ b ∈ f.blocks, b.succs = b.term.targets.eraseDups
  incomings_eq : ∀ b ∈ f.blocks, ∀ x ∈ b.insts, x.kind = "phi" →
    x.incomings.map (·.block) = b.preds

theorem id_instOf (g : Graph) (v : ValueId) (e : Expr) : (instOf g v e).id = v := by
  cases e with
  | const c => cases c <;> rfl
  | call callee args keywords =>
    cases callee with
    | none => rfl
    | some callee => cases callee <;> rfl
  | _ => rfl

/-- Instructions are of eight kinds. -/
theorem kind_instOf (h : ∀ u ∈ e.inputs, u.isSome = true) : (instOf g v e).kind ∈
    ["arg", "none", "const", "global", "load", "store", "call", "phi"] := by
  cases e with
  | const c => cases c <;> simp [instOf]
  | call callee args keywords =>
    cases callee with
    | none => exact absurd (h none List.mem_cons_self) Bool.noConfusion
    | some callee => cases callee <;> simp [instOf]
  | _ => simp [instOf]

/-- A value uses its operands.  One that has no value as callee may seem to call value zero. -/
theorem uses_instOf {n : Int} (hn : n ∈ (instOf g v e).uses) :
    n = 0 ∨ ∃ u ∈ e.inputs, n = idOf u := by
  cases e with
  | const c => cases c <;> simp [instOf, Inst.uses] at hn
  | store name value => exact .inr ⟨value, List.mem_cons_self, List.mem_singleton.1 hn⟩
  | call callee args keywords =>
    have hrest : ∀ {callee}, n ∈ args.map idOf ∨ n ∈ (keywords.map keywordOf).map (·.value) →
        ∃ u ∈ (Expr.call callee args keywords).inputs, n = idOf u := by
      rintro callee (hn | hn)
      · obtain ⟨u, hu, rfl⟩ := List.mem_map.1 hn
        exact ⟨u, List.mem_append_left _ (List.mem_append_right _ hu), rfl⟩
      · rw [List.map_map] at hn
        obtain ⟨k, hk, rfl⟩ := List.mem_map.1 hn
        exact ⟨k.value, List.mem_append_right _ (List.mem_map_of_mem hk), rfl⟩
    cases callee with
    | none => cases hn
    | some callee =>
      cases callee with
      | operator o =>
        rcases (List.mem_append.1 hn).imp_left List.mem_append.1 with (hcallee | hn) | hn
        · split at hcallee
          · exact .inl (List.mem_singleton.1 hcallee)
          · cases hcallee
        · exact .inr (hrest (.inl hn))
        · exact .inr (hrest (.inr hn))
      | value w =>
        rcases (List.mem_append.1 hn).imp_left List.mem_append.1 with (hcallee | hn) | hn
        · exact .inr ⟨some w, List.mem_append_left _ (List.mem_append_left _ List.mem_cons_self),
            List.mem_singleton.1 hcallee⟩
        · exact .inr (hrest (.inl hn))
        · exact .inr (hrest (.inr hn))
  | phi p =>
    obtain ⟨i, hi, rfl⟩ := List.mem_map.1 hn
    obtain ⟨j, hj, rfl⟩ := List.mem_map.1 hi
    exact .inr ⟨j.value, List.mem_map_of_mem hj, rfl⟩
  | _ => cases hn

/-- Only into a phi do values flow. -/
theorem incomings_instOf (g : Graph) (v : ValueId) (e : Expr) :
    (∃ p, e = .phi p ∧ (instOf g v e).incomings.map (·.block) =
      p.incomings.map fun i => g.offset i.block) ∨
    (instOf g v e).kind ≠ "phi" ∧ (instOf g v e).incomings = [] := by
  cases e with
  | phi p => exact .inl ⟨p, rfl, List.map_map ..⟩
  | const c => cases c <;> exact .inr ⟨by simp [instOf], rfl⟩
  | call callee args keywords =>
    cases callee with
    | none => exact .inr ⟨by simp [instOf], rfl⟩
    | some callee => cases callee <;> exact .inr ⟨by simp [instOf], rfl⟩
  | _ => exact .inr ⟨by simp [instOf], rfl⟩

theorem targets_termOf (g : Graph) (t : Terminator) :
    (termOf g t).targets = t.targets.map g.offset := by
  cases t <;> rfl

/-- Terminators are of four kinds. -/
theorem kind_termOf (g : Graph) (t : Terminator) :
    (termOf g t).kind ∈ ["jump", "branch", "ret", "retvoid"] := by
  cases t <;> simp [termOf]

/-- A terminator uses the numbers of its operands. -/
theorem uses_termOf {n : Int} (hn : n ∈ (termOf g t).uses) : ∃ u ∈ t.operands, n = idOf u := by
  cases t with
  | branch cond a a' => exact ⟨cond, List.mem_cons_self, List.mem_singleton.1 hn⟩
  | ret v => exact ⟨v, List.mem_cons_self, List.mem_singleton.1 hn⟩
  | _ => cases hn

/-- Targets are the same if they have the same offsets, so it does not matter when the double one
is left out. -/
theorem eraseDups_map_targets (t : Terminator)
    (hinj : ∀ a ∈ t.targets, ∀ a' ∈ t.targets, g.offset a = g.offset a' → a = a') :
    t.targets.eraseDups.map g.offset = (t.targets.map g.offset).eraseDups := by
  cases t with
  | branch cond a a' =>
    by_cases heq : a' = a
    · simp [Terminator.targets, heq, List.eraseDups_cons]
    · have hne : g.offset a' ≠ g.offset a := fun hoff =>
        heq (hinj a' (List.mem_cons_of_mem _ List.mem_cons_self) a List.mem_cons_self hoff)
      simp [Terminator.targets, heq, hne, List.eraseDups_cons]
  | _ => rfl

end Handoff

namespace Graph

variable {g : Graph} {a b : BlockId} {v : ValueId} {name : String} {args : List String}

theorem Typed.lt_of_mem_code (h : g.Typed) (hv : v ∈ (g.block b).code) :
    v < g.definitions.size := by
  rcases mem_code_iff.1 hv with hv | hv
  · obtain ⟨k, hk⟩ := Array.mem_iff_getElem?.1 hv
    exact (h.phi b k v hk).1
  · obtain ⟨k, hk⟩ := Array.mem_iff_getElem?.1 hv
    exact (h.body b k v hk).1

/-- No value stands twice in a block. -/
theorem Typed.nodup_code (h : g.Typed) (b : BlockId) : (g.block b).code.Nodup := by
  refine List.nodup_append.2 ⟨?_, (h.ascending b).imp Nat.ne_of_lt, ?_⟩
  · -- phis at different places are phis of different slots
    refine List.pairwise_iff_getElem.2 fun i j hi hj hlt heq => ?_
    obtain ⟨-, -, p, hp, hslot⟩ := h.phi b i _ (Array.getElem?_eq_getElem hi)
    obtain ⟨-, -, q, hq, hslot'⟩ := h.phi b j _ (Array.getElem?_eq_getElem hj)
    rw [Array.getElem_toList, Array.getElem_toList] at heq
    rw [heq] at hp
    obtain rfl : p = q := Option.some.inj (hp.symm.trans hq)
    omega
  · rintro u hu v hv rfl
    obtain ⟨i, hi⟩ := Array.mem_iff_getElem?.1 (Array.mem_toList_iff.1 hu)
    obtain ⟨j, hj⟩ := Array.mem_iff_getElem?.1 (Array.mem_toList_iff.1 hv)
    obtain ⟨-, -, p, hp, -⟩ := h.phi b i u hi
    rw [(h.body b j u hj).2.2] at hp
    cases hp

/-- The values of the blocks that are handed over. -/
def valuesHandedOver (g : Graph) : List ValueId :=
  g.handedOver.flatMap fun b => (g.block b).code

namespace Deliverable

theorem isSome_of_supplies {v : Operand} (h : g.Supplies v) : v.isSome = true := by
  obtain ⟨u, -, rfl, -⟩ := h
  rfl

theorem mem_live_of_handedOver (hb : b ∈ g.handedOver) : b ∈ g.live := (List.mem_filter.1 hb).1

/-- A block of a graph that can be delivered is handed over. -/
theorem flattenBlock_eq (h : g.Deliverable) (hb : b ∈ g.handedOver) :
    Handoff.flattenBlock g b = .ok (Handoff.blockOf g b) := by
  obtain ⟨t, ht, -, hops⟩ := h.terminators b hb
  have hvalue : ∀ v ∈ (g.block b).code, Handoff.flattenValue g v =
      .ok ((g.definition v).expr.elim { id := v } (Handoff.instOf g v)) := by
    intro v hv
    obtain ⟨e, he, hinputs⟩ := h.values b v hv
    rw [Handoff.flattenValue, he]
    exact Handoff.flattenExpr_eq fun u hu => isSome_of_supplies (hinputs u hu)
  rw [Handoff.flattenBlock, Handoff.mapM_eq_map hvalue, ht,
    Handoff.flattenTerminator_eq fun u hu => isSome_of_supplies (hops u hu), Handoff.blockOf, ht]
  rfl

/-- Nothing is missing from what is handed over. -/
theorem flatten_eq (h : g.Deliverable) (name : String) (args : List String) :
    Handoff.flatten name args g = .ok (Handoff.functionOf name args g) := by
  have hblock : ∀ b ∈ g.handedOver,
      (Handoff.flattenBlock g b).mapError (Handoff.stopIn (g.offset b)) =
        .ok (Handoff.blockOf g b) := by
    intro b hb
    rw [h.flattenBlock_eq hb]
    rfl
  rw [Handoff.flatten, ← Graph.handedOver, Handoff.mapM_eq_map hblock]
  rfl

/-- All values are handed over. -/
theorem mem_valuesHandedOver_iff (h : g.Deliverable) (v : ValueId) :
    v ∈ g.valuesHandedOver ↔ v < g.valueCount := by
  constructor
  · intro hv
    obtain ⟨b, -, hv⟩ := List.mem_flatMap.1 hv
    exact h.typed.lt_of_mem_code hv
  · intro hlt
    have hv := h.typed.placed v hlt
    exact List.mem_flatMap.2 ⟨_, h.code _ v hv, hv⟩

/-- No value is handed over twice. -/
theorem nodup_valuesHandedOver (h : g.Deliverable) : g.valuesHandedOver.Nodup := by
  refine List.nodup_flatMap.2 ⟨fun b _ => h.typed.nodup_code b, ?_⟩
  refine (h.ordered.nodup.filter _).imp fun {a b} hne v hva hvb => hne ?_
  rw [← h.typed.block_of_mem_code hva, ← h.typed.block_of_mem_code hvb]

theorem ids_eq (g : Graph) (name : String) (args : List String) :
    (Handoff.functionOf name args g).ids = g.valuesHandedOver.map fun v : Nat => (v : Int) := by
  rw [Handoff.Function.ids, Handoff.functionOf, List.flatMap_map, valuesHandedOver,
    List.map_flatMap]
  refine congrArg (g.handedOver.flatMap ·) (funext fun b => ?_)
  rw [Handoff.blockOf, List.map_map]
  refine List.map_congr_left fun v _ => ?_
  rw [Function.comp_apply]
  cases (g.definition v).expr with
  | none => rfl
  | some e => exact Handoff.id_instOf g v e

/-- The numbers of instructions are those of values. -/
theorem mem_ids_iff (h : g.Deliverable) (i : Int) :
    i ∈ (Handoff.functionOf name args g).ids ↔ 0 ≤ i ∧ i < g.valueCount := by
  rw [ids_eq, List.mem_map]
  constructor
  · rintro ⟨v, hv, rfl⟩
    exact ⟨Int.natCast_nonneg v, Int.ofNat_lt.2 ((h.mem_valuesHandedOver_iff v).1 hv)⟩
  · rintro ⟨hle, hlt⟩
    exact ⟨i.toNat, (h.mem_valuesHandedOver_iff _).2 ((Int.toNat_lt hle).2 hlt),
      Int.toNat_of_nonneg hle⟩

theorem mem_ids_of_supplies {v : Operand} (hv : g.Supplies v) :
    Handoff.idOf v ∈ (Handoff.functionOf name args g).ids := by
  obtain ⟨u, a, rfl, ha, hu⟩ := hv
  rw [ids_eq]
  exact List.mem_map_of_mem (List.mem_flatMap.2 ⟨a, ha, hu⟩)

theorem mem_offsets (ha : a ∈ g.handedOver) :
    g.offset a ∈ (Handoff.functionOf name args g).offsets := by
  rw [Handoff.Function.offsets, Handoff.functionOf, List.map_map]
  exact List.mem_map_of_mem ha

/-- Blocks that are handed over can be told apart by their offsets. -/
theorem offset_mem_map_iff (h : g.Deliverable) (ha : a ∈ g.handedOver) {l : List BlockId}
    (hl : ∀ b ∈ l, b ∈ g.handedOver) : g.offset a ∈ l.map g.offset ↔ a ∈ l := by
  refine ⟨fun hmem => ?_, List.mem_map_of_mem⟩
  obtain ⟨b, hb, heq⟩ := List.mem_map.1 hmem
  rwa [← h.ordered.eq_of_offset_eq (mem_live_of_handedOver (hl b hb))
    (mem_live_of_handedOver ha) heq]

/-- An instruction that is handed over is a value of its block, with inputs that are supplied. -/
theorem exists_of_mem_insts (h : g.Deliverable) {x : Handoff.Inst}
    (hx : x ∈ (Handoff.blockOf g b).insts) : ∃ v ∈ (g.block b).code, ∃ e,
      (g.definition v).expr = some e ∧ x = Handoff.instOf g v e ∧ ∀ u ∈ e.inputs, g.Supplies u := by
  obtain ⟨v, hv, rfl⟩ := List.mem_map.1 hx
  obtain ⟨e, he, hinputs⟩ := h.values b v hv
  refine ⟨v, hv, e, he, ?_, hinputs⟩
  rw [he]
  rfl

/-- What flows into a phi comes from the predecessors, and into other values nothing flows. -/
theorem incomings_cases (h : g.Deliverable) {x : Handoff.Inst}
    (hx : x ∈ (Handoff.blockOf g b).insts) :
    x.incomings.map (·.block) = (Handoff.blockOf g b).preds ∨
      x.kind ≠ "phi" ∧ x.incomings = [] := by
  obtain ⟨v, hv, e, he, rfl, -⟩ := h.exists_of_mem_insts hx
  rcases Handoff.incomings_instOf g v e with ⟨p, rfl, hmap⟩ | hnone
  · have hp : (g.definition v).phi? = some p := by rw [Definition.phi?, he]
    refine .inl (hmap.trans ?_)
    rw [Handoff.blockOf, ← h.phis b v hv p hp, List.map_map]
    rfl
  · exact .inr hnone

/-- What is handed over is closed. -/
theorem isClosed (h : g.Deliverable) (name : String) (args : List String) :
    (Handoff.functionOf name args g).IsClosed g.valueCount := by
  have hblocks : ∀ {P : Handoff.Block → Prop}, (∀ b ∈ g.handedOver, P (Handoff.blockOf g b)) →
      ∀ x ∈ (Handoff.functionOf name args g).blocks, P x := by
    intro P hP x hx
    obtain ⟨b, hb, rfl⟩ := List.mem_map.1 hx
    exact hP b hb
  have hterm : ∀ b ∈ g.handedOver, ∃ t, (Handoff.blockOf g b).term = Handoff.termOf g t ∧
      (g.block b).succs = t.targets.eraseDups ∧ ∀ u ∈ t.operands, g.Supplies u := by
    intro b hb
    obtain ⟨t, ht, hsuccs, hops⟩ := h.terminators b hb
    refine ⟨t, ?_, hsuccs, hops⟩
    rw [Handoff.blockOf, ht]
    rfl
  have htargets : ∀ {b} {t : Terminator}, (g.block b).succs = t.targets.eraseDups →
      ∀ a ∈ t.targets, a ∈ g.handedOver := fun hsuccs a ha =>
    h.succs _ a (hsuccs ▸ List.mem_eraseDups.2 ha)
  constructor
  case ascending =>
    rw [Handoff.Function.offsets, Handoff.functionOf, List.map_map]
    exact List.pairwise_map.2 (h.ordered.filter _)
  case term_kinds =>
    refine hblocks fun b hb => ?_
    obtain ⟨t, ht, -, -⟩ := hterm b hb
    rw [ht]
    exact Handoff.kind_termOf g t
  case kinds =>
    refine hblocks fun b hb x hx => ?_
    obtain ⟨v, -, e, -, rfl, hinputs⟩ := h.exists_of_mem_insts hx
    exact Handoff.kind_instOf fun u hu => isSome_of_supplies (hinputs u hu)
  case ids_nodup =>
    rw [ids_eq]
    exact h.nodup_valuesHandedOver.map fun _ _ => Int.ofNat_inj.1
  case mem_ids_iff => exact h.mem_ids_iff
  case uses =>
    refine hblocks fun b hb x hx n hn => ?_
    obtain ⟨v, hv, e, -, rfl, hinputs⟩ := h.exists_of_mem_insts hx
    rcases Handoff.uses_instOf hn with rfl | ⟨u, hu, rfl⟩
    · -- there is a value, so there is the first one
      exact (h.mem_ids_iff 0).2 ⟨Int.le_refl 0,
        Int.ofNat_lt.2 (Nat.zero_lt_of_lt (h.typed.lt_of_mem_code hv))⟩
    · exact mem_ids_of_supplies (hinputs u hu)
  case term_uses =>
    refine hblocks fun b hb n hn => ?_
    obtain ⟨t, ht, -, hops⟩ := hterm b hb
    rw [ht] at hn
    obtain ⟨u, hu, rfl⟩ := Handoff.uses_termOf hn
    exact mem_ids_of_supplies (hops u hu)
  case edges_inside =>
    refine hblocks fun b hb o ho => ?_
    obtain ⟨t, ht, hsuccs, -⟩ := hterm b hb
    rw [ht, Handoff.targets_termOf] at ho
    rcases (List.mem_append.1 ho).imp_left List.mem_append.1 with (ho | ho) | ho
    · obtain ⟨a, ha, rfl⟩ := List.mem_map.1 ho
      exact mem_offsets (h.preds b a ha)
    · obtain ⟨a, ha, rfl⟩ := List.mem_map.1 ho
      exact mem_offsets (h.succs b a ha)
    · obtain ⟨a, ha, rfl⟩ := List.mem_map.1 ho
      exact mem_offsets (htargets hsuccs a ha)
  case incomings_inside =>
    refine hblocks fun b hb x hx i hi => ?_
    rcases h.incomings_cases hx with hpreds | ⟨-, hnone⟩
    · have hmem : i.block ∈ (Handoff.blockOf g b).preds := hpreds ▸ List.mem_map_of_mem hi
      obtain ⟨a, ha, heq⟩ := List.mem_map.1 hmem
      exact heq ▸ mem_offsets (h.preds b a ha)
    · rw [hnone] at hi
      cases hi
  case edge_iff =>
    refine hblocks fun a ha => hblocks fun b hb => ?_
    exact (h.offset_mem_map_iff ha (h.preds b)).trans
      ((h.edge_iff a b).symm.trans (h.offset_mem_map_iff hb (h.succs a)).symm)
  case succs_eq =>
    refine hblocks fun b hb => ?_
    obtain ⟨t, ht, hsuccs, -⟩ := hterm b hb
    rw [ht, Handoff.targets_termOf, ← Handoff.eraseDups_map_targets, ← hsuccs]
    · rfl
    · exact fun a ha a' ha' => h.ordered.eq_of_offset_eq
        (mem_live_of_handedOver (htargets hsuccs a ha))
        (mem_live_of_handedOver (htargets hsuccs a' ha'))
  case incomings_eq =>
    refine hblocks fun b hb x hx hkind => ?_
    exact (h.incomings_cases hx).resolve_right fun hother => hother.1 hkind

end Deliverable

end Graph

/-- What a compiled function is handed over as is closed, and nothing is missing from it. -/
theorem Lifter.isClosed_of_compile {l : Listing} {c : Code} {options : LiftOptions} {s : Lifter}
    (hsize : l.IsAddressable) (hbuild : l.build = .ok c) (hok : compile c options = .ok () s)
    (name : String) (args : List String) :
    ∃ f, Handoff.flatten name args s.graph = .ok f ∧ f.IsClosed s.graph.valueCount := by
  have hc := Listing.sound_of_build hsize hbuild
  obtain ⟨-, done, g, -, h⟩ := compile_ok hc hok
  exact ⟨_, (h.deliverable hc).flatten_eq name args, (h.deliverable hc).isClosed name args⟩

/-- Whether a listing is a function that is compiled and passes a check. -/
def Listing.compiles (l : Listing) (options : LiftOptions) (check : Lifter → Bool) : Bool :=
  match l.build with
  | .ok c =>
    match Lifter.compile c options with
    | .ok () s => check s
    | .error _ _ => false
  | .error _ => false

theorem Listing.exists_of_compiles {l : Listing} {options : LiftOptions} {check : Lifter → Bool}
    (h : l.compiles options check = true) :
    ∃ c s, l.build = .ok c ∧ Lifter.compile c options = .ok () s ∧ check s = true := by
  unfold Listing.compiles at h
  split at h
  · rename_i c hbuild
    split at h
    · rename_i s hcompile
      exact ⟨c, s, hbuild, hcompile, h⟩
    · cases h
  · cases h

/-- Of this loop one block is dead and left out, but no value is. -/
theorem Lifter.isClosed_loop : Listing.loop.IsAddressable ∧ ∃ c s f, Listing.loop.build = .ok c ∧
    Lifter.compile c { keepDead := true } = .ok () s ∧
    (s.graph.live.map s.graph.offset = [0, 3, 6, 9, 10] ∧ s.graph.valueCount = 6) ∧
    Handoff.flatten c.name c.signature.args s.graph = .ok f ∧ f.IsClosed s.graph.valueCount := by
  have hcompiles : Listing.loop.compiles { keepDead := true } (fun s =>
      s.graph.live.map s.graph.offset = [0, 3, 6, 9, 10] ∧ s.graph.valueCount = 6) = true := by
    simp only [Listing.compiles, Lifter.compile, Lifter.lift, Lift.all, Code.getElem?_index]
    decide +kernel
  obtain ⟨c, s, hbuild, hok, hcheck⟩ := Listing.exists_of_compiles hcompiles
  have hsize : Listing.loop.IsAddressable := by decide +kernel
  obtain ⟨f, hflatten, hclosed⟩ :=
    Lifter.isClosed_of_compile hsize hbuild hok c.name c.signature.args
  exact ⟨hsize, c, s, f, hbuild, hok, of_decide_eq_true hcheck, hflatten, hclosed⟩

end StackLift
