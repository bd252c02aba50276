/-
# Graphs read back from their hand-off form

The hand-off form of a lifted function is read back.  Numbers of blocks mean nothing outside of a
graph, so blocks are named by their offsets, of which no two in a graph are the same.  Nothing else
of the blocks, of how they are left and of their values is lost.

* `Graph.named` : a graph with its blocks named by offsets;
* `Handoff.Function.named` : what a hand-off form gives back;
* `Graph.Finished` : what a graph needs for that;
* `Lifter.named_of_flatten` : a lifted graph is given back.
-/
import StackLift.Proofs.Handoff
import StackLift.Proofs.Provenance

namespace StackLift

/-! ## Graphs with named blocks -/

/-- How a value is computed, with blocks named by their offsets.  Nothing but a phi has blocks in
it. -/
inductive NamedExpr
  | plain (e : Expr)
  | phi (slot : Int) (incomings : List (Int × Operand)) (complete : Bool)
  deriving DecidableEq, Repr

/-- A value of a block. -/
structure NamedValue where
  id : ValueId
  line : Int
  expr : Option NamedExpr
  deriving DecidableEq, Repr

/-- How a block is left, with blocks named by their offsets. -/
inductive NamedTerminator
  | jump (target : Int)
  | branch (cond : Operand) (ifTrue ifFalse : Int)
  | ret (value : Operand)
  | retVoid
  deriving DecidableEq, Repr

/-- A block with its neighbours named by their offsets. -/
structure NamedBlock where
  offset : Int
  preds : List Int
  succs : List Int
  /-- The values, phis first. -/
  code : List NamedValue
  terminator : Option NamedTerminator
  deriving DecidableEq, Repr

namespace Graph

/-- How a value is computed. -/
def namedExpr (g : Graph) : Expr → NamedExpr
  | .phi p => .phi p.slot (p.incomings.map fun i => (g.offset i.block, i.value)) p.complete
  | e => .plain e

/-- How a block is left. -/
def namedTerminator (g : Graph) : Terminator → NamedTerminator
  | .jump a => .jump (g.offset a)
  | .branch cond a a' => .branch cond (g.offset a) (g.offset a')
  | .ret v => .ret v
  | .retVoid => .retVoid

/-- A value. -/
def namedValue (g : Graph) (v : ValueId) : NamedValue :=
  { id := v, line := (g.definition v).line, expr := (g.definition v).expr.map g.namedExpr }

/-- A block. -/
def namedBlock (g : Graph) (b : BlockId) : NamedBlock where
  offset := g.offset b
  preds := (g.block b).preds.map g.offset
  succs := (g.block b).succs.map g.offset
  code := (g.block b).code.map g.namedValue
  terminator := (g.block b).terminator.map g.namedTerminator

/-- All blocks, in ascending order of offset. -/
def named (g : Graph) : List NamedBlock := g.live.map g.namedBlock

end Graph

/-! ## Reading the hand-off form back -/

namespace Handoff

/-- The constant that a datum stands for. -/
def constantOf : Datum → Constant
  | .bool b => .bool b
  | .int n => .int n
  | .float x => .float x
  | .text t => .str t
  | _ => .none

/-- The value of a number. -/
def operandOf (id : Int) : Operand := some id.toNat

/-- What a value calls.  Operators have a name. -/
def Inst.calleeOf (x : Inst) : Callee :=
  if x.callee = "" then .value x.calleeId.toNat else .operator ⟨x.callee⟩

/-- How a value is computed. -/
def Inst.namedExpr (x : Inst) : NamedExpr :=
  match x.kind with
  | "arg" => .plain (.arg x.num x.name)
  | "none" => .plain (.const .none)
  | "const" => .plain (.const (constantOf x.const))
  | "global" => .plain (.global x.name)
  | "load" => .plain (.load x.name)
  | "store" => .plain (.store x.name (operandOf x.value))
  | "call" => .plain (.call (some x.calleeOf) (x.args.map operandOf)
      (x.keywords.map fun k => ⟨k.name, operandOf k.value⟩))
  | _ => .phi x.slot (x.incomings.map fun i => (i.block, operandOf i.value)) true

/-- A value. -/
def Inst.namedValue (x : Inst) : NamedValue :=
  { id := x.id.toNat, line := x.line, expr := some x.namedExpr }

/-- How a block is left. -/
def Term.named (t : Term) : NamedTerminator :=
  match t.kind, t.targets with
  | "jump", [a] => .jump a
  | "branch", [a, a'] => .branch (operandOf t.value) a a'
  | "ret", _ => .ret (operandOf t.value)
  | _, _ => .retVoid

/-- A block. -/
def Block.named (b : Block) : NamedBlock where
  offset := b.offset
  preds := b.preds
  succs := b.succs
  code := b.insts.map Inst.namedValue
  terminator := some b.term.named

/-- All blocks. -/
def Function.named (f : Function) : List NamedBlock := f.blocks.map Block.named

variable {g : Graph} {v : ValueId} {e : Expr} {t : Terminator}

theorem line_instOf (g : Graph) (v : ValueId) (e : Expr) :
    (instOf g v e).line = (g.definition v).line := by
  cases e with
  | const c => cases c <;> rfl
  | call callee args keywords =>
    cases callee with
    | none => rfl
    | some callee => cases callee <;> rfl
  | _ => rfl

theorem operandOf_idOf {v : Operand} (h : v.isSome = true) : operandOf (idOf v) = v := by
  cases v with
  | none => cases h
  | some v => rfl

theorem map_operandOf {vs : List Operand} (h : ∀ v ∈ vs, v.isSome = true) :
    (vs.map idOf).map operandOf = vs := by
  rw [List.map_map]
  exact (List.map_congr_left fun v hv => operandOf_idOf (h v hv)).trans (List.map_id _)

/-- A value is given back if what it is made of is there, operators have names and phis are
complete. -/
theorem Inst.namedExpr_instOf (hinputs : ∀ u ∈ e.inputs, u.isSome = true)
    (hoperator : ∀ o args keywords, e = .call (some (.operator o)) args keywords → o.name ≠ "")
    (hcomplete : ∀ p, e = .phi p → p.complete = true) :
    (instOf g v e).namedExpr = g.namedExpr e := by
  cases e with
  | arg index name => rfl
  | const c => cases c <;> rfl
  | global name => rfl
  | load name => rfl
  | store name value =>
    have hvalue := operandOf_idOf (hinputs value List.mem_cons_self)
    exact congrArg (NamedExpr.plain ∘ Expr.store name) hvalue
  | call callee args keywords =>
    have hargs : (args.map idOf).map operandOf = args := by
      refine map_operandOf fun u hu => hinputs u ?_
      exact List.mem_append_left _ (List.mem_append_right _ hu)
    have hkeywords : (keywords.map keywordOf).map
        (fun k => (⟨k.name, operandOf k.value⟩ : StackLift.Keyword)) = keywords := by
      rw [List.map_map]
      refine (List.map_congr_left fun k hk => ?_).trans (List.map_id _)
      have hvalue := hinputs k.value (List.mem_append_right _ (List.mem_map_of_mem hk))
      exact congrArg (StackLift.Keyword.mk k.name) (operandOf_idOf hvalue)
    have hrest (x : Callee) := congrArg₂ (fun as ks => NamedExpr.plain (.call (some x) as ks)) hargs
      hkeywords
    -- an operator is told from a value by its name
    cases callee with
    | none => exact absurd (hinputs none List.mem_cons_self) Bool.noConfusion
    | some callee =>
      cases callee with
      | operator o =>
        have hcallee : (instOf g v (.call (some (.operator o)) args keywords)).calleeOf =
            .operator o := if_neg (hoperator o args keywords rfl)
        refine .trans ?_ (hrest (.operator o))
        exact congrArg (fun x => NamedExpr.plain (.call (some x) _ _)) hcallee
      | value u => exact hrest (.value u)
  | phi p =>
    have hincomings : (p.incomings.map (incomingOf g)).map (fun i => (i.block, operandOf i.value)) =
        p.incomings.map fun i => (g.offset i.block, i.value) := by
      rw [List.map_map]
      refine List.map_congr_left fun i hi => ?_
      exact congrArg (Prod.mk _) (operandOf_idOf (hinputs _ (List.mem_map_of_mem hi)))
    change NamedExpr.phi p.slot _ true = .phi p.slot _ p.complete
    rw [hcomplete p rfl]
    exact congrArg (NamedExpr.phi p.slot · true) hincomings

theorem Term.named_termOf (h : ∀ u ∈ t.operands, u.isSome = true) :
    (termOf g t).named = g.namedTerminator t := by
  cases t with
  | jump a => rfl
  | branch cond a a' =>
    have hcond := operandOf_idOf (h cond List.mem_cons_self)
    exact congrArg (NamedTerminator.branch · (g.offset a) (g.offset a')) hcond
  | ret v => exact congrArg NamedTerminator.ret (operandOf_idOf (h v List.mem_cons_self))
  | retVoid => rfl

end Handoff

/-! ## Finished graphs -/

/-- Whether a graph can be handed over as a whole and read back. -/
structure Graph.Finished (g : Graph) : Prop extends g.Deliverable where
  whole : g.handedOver = g.live
  operators : ∀ v o args keywords,
    (g.definition v).expr = some (.call (some (.operator o)) args keywords) → o.name ≠ ""
  complete : ∀ b ∈ g.live, ∀ v ∈ (g.block b).code, ∀ p, (g.definition v).phi? = some p →
    p.complete = true

namespace Graph.Finished

variable {g : Graph} {b : BlockId}

/-- A value is given back. -/
theorem namedValue_eq (h : g.Finished) (hb : b ∈ g.live) {v : ValueId}
    (hv : v ∈ (g.block b).code) :
    ((g.definition v).expr.elim { id := v } (Handoff.instOf g v)).namedValue = g.namedValue v := by
  obtain ⟨e, he, hinputs⟩ := h.values b v hv
  have hexpr : (Handoff.instOf g v e).namedExpr = g.namedExpr e := by
    apply Handoff.Inst.namedExpr_instOf
    · exact fun u hu => Deliverable.isSome_of_supplies (hinputs u hu)
    · rintro o args keywords rfl
      exact h.operators v o args keywords he
    · rintro p rfl
      refine h.complete b hb v hv p ?_
      rw [Definition.phi?, he]
  rw [namedValue, he]
  show (Handoff.instOf g v e).namedValue = _
  rw [Handoff.Inst.namedValue, Handoff.id_instOf, Handoff.line_instOf, hexpr]
  rfl

/-- A block is given back. -/
theorem namedBlock_eq (h : g.Finished) (hb : b ∈ g.live) :
    (Handoff.blockOf g b).named = g.namedBlock b := by
  obtain ⟨t, ht, -, hops⟩ := h.terminators b (h.whole ▸ hb)
  have hcode : (Handoff.blockOf g b).insts.map Handoff.Inst.namedValue =
      (g.block b).code.map g.namedValue := by
    rw [Handoff.blockOf, List.map_map]
    exact List.map_congr_left fun v hv => h.namedValue_eq hb hv
  have hterm : (Handoff.blockOf g b).term.named = g.namedTerminator t := by
    rw [Handoff.blockOf, ht]
    exact Handoff.Term.named_termOf fun u hu => Deliverable.isSome_of_supplies (hops u hu)
  rw [Handoff.Block.named, hcode, hterm, namedBlock, ht]
  rfl

/-- A finished graph is handed over and given back. -/
theorem exists_flatten (h : g.Finished) (name : String) (args : List String) :
    ∃ f, Handoff.flatten name args g = .ok f ∧ f.named = g.named := by
  refine ⟨_, h.flatten_eq name args, ?_⟩
  rw [Handoff.Function.named, Handoff.functionOf, h.whole, List.map_map, named]
  exact List.map_congr_left fun b hb => h.namedBlock_eq hb

end Graph.Finished

/-! ## Lifted graphs -/

theorem Operator.name_ne_empty : ∀ o ∈ Operator.all, o.name ≠ "" := by decide

namespace Lifter

variable {c c' : Code} {done : List Int} {g : Graph} {s s' : Lifter}

/-- A graph from which the dead blocks were removed is handed over as a whole. -/
theorem Lifted.handedOver_eq_live (h : Lifted c done g s) (hc : c.Sound)
    (hremove : s.options.keepDead = false) : s.graph.handedOver = s.graph.live := by
  refine List.filter_eq_self.2 fun b hb => ?_
  obtain ⟨hlive, hkeep | hdone⟩ := (h.mem_live_iff hc b).1 hb
  · rw [hremove] at hkeep
    cases hkeep
  · exact (List.mem_filter.1 ((h.mem_handedOver_iff hc b).2 ⟨hlive, hdone⟩)).2

/-- A lifted graph without dead blocks is finished. -/
theorem Lifted.finished (h : Lifted c done g s) (hc : c.Sound)
    (hsourced : s.graph.Sourced c) (hremove : s.options.keepDead = false) :
    s.graph.Finished where
  toDeliverable := h.deliverable hc
  whole := h.handedOver_eq_live hc hremove
  operators v o args keywords he :=
    Operator.name_ne_empty o ((hsourced.exprs v _ he).1 o rfl)
  complete b hb v hv p hp := by
    rcases Graph.mem_code_iff.1 hv with hv | hv
    · obtain ⟨k, hk⟩ := Array.mem_iff_getElem?.1 hv
      obtain ⟨q, hq, hcomplete⟩ := Graph.complete_of_verifyPhis h.verified hb hk
      obtain rfl : q = p := Option.some.inj (hq.symm.trans hp)
      exact hcomplete
    · -- the other values are no phis
      obtain ⟨k, hk⟩ := Array.mem_iff_getElem?.1 hv
      rw [(h.feeding.typed.body b k v hk).2.2] at hp
      cases hp

theorem finished_of_lift (hc : c.Sound)
    (hlift : (ofCode c { keepDead := false }).lift = .ok () s) : s.graph.Finished := by
  obtain ⟨hoptions, done, g, hwalked, hlifted⟩ := (isOpened_ofCode c _).lift_ok hc hlift
  refine hlifted.finished hc (hlifted.sourced (hwalked.sourced hc)) ?_
  rw [hoptions]

/-- **A lifted graph is given back by its hand-off form.**  No two blocks of it have the same name,
so graphs with the same hand-off form have the same blocks, values and edges. -/
theorem named_of_flatten {l l' : Listing} (hsize : l.IsAddressable) (hsize' : l'.IsAddressable)
    (hbuild : l.build = .ok c) (hbuild' : l'.build = .ok c')
    (hlift : (ofCode c { keepDead := false }).lift = .ok () s)
    (hlift' : (ofCode c' { keepDead := false }).lift = .ok () s') (name : String)
    (args : List String) :
    (∃ f, Handoff.flatten name args s.graph = .ok f ∧ f.named = s.graph.named) ∧
      (s.graph.named.map (·.offset)).Nodup ∧
      (Handoff.flatten name args s.graph = Handoff.flatten name args s'.graph →
        s.graph.named = s'.graph.named) := by
  have hfinished := finished_of_lift (Listing.sound_of_build hsize hbuild) hlift
  have hfinished' := finished_of_lift (Listing.sound_of_build hsize' hbuild') hlift'
  obtain ⟨f, hf, hnamed⟩ := hfinished.exists_flatten name args
  obtain ⟨f', hf', hnamed'⟩ := hfinished'.exists_flatten name args
  refine ⟨⟨f, hf, hnamed⟩, ?_, fun hsame => ?_⟩
  · rw [Graph.named, List.map_map]
    exact List.pairwise_map.2 (hfinished.ordered.imp fun hlt => Int.ne_of_lt hlt)
  · rw [hf, hf'] at hsame
    cases hsame
    exact hnamed.symm.trans hnamed'

end Lifter

/-- A call with a keyword of a value that depends on the way. -/
def Listing.keyed : Listing where
  args := ["x", "y"]
  consts := ["\"k\"", "None"]
  names := ["f"]
  code := "LOAD_FAST 0\nLOAD_FAST 1\nJUMP_IF_TRUE_OR_POP end\nLOAD_GLOBAL 0\nend:\n" ++
    "LOAD_CONST 0\nLOAD_FAST 0\nCALL_FUNCTION 256\nRETURN_VALUE\n"

/-- The same with more constants, another order of them, and a jump that is never reached. -/
def Listing.keyedAndMore : Listing where
  args := ["x", "y"]
  consts := ["None", "\"k\"", "1"]
  names := ["g", "f"]
  code := "LOAD_FAST 0\nLOAD_FAST 1\nJUMP_IF_TRUE_OR_POP end\nLOAD_GLOBAL 1\nend:\n" ++
    "LOAD_CONST 1\nLOAD_FAST 0\nCALL_FUNCTION 256\nRETURN_VALUE\nJUMP_ABSOLUTE end\n"

/-- Both are handed over alike, and given back alike. -/
theorem Lifter.named_keyed : Listing.keyed.IsAddressable ∧ Listing.keyedAndMore.IsAddressable ∧
    ∃ c c' s s', Listing.keyed.build = .ok c ∧ Listing.keyedAndMore.build = .ok c' ∧
      (ofCode c { keepDead := false }).lift = .ok () s ∧
      (ofCode c' { keepDead := false }).lift = .ok () s' ∧ s.code ≠ s'.code ∧
      (∃ f, Handoff.flatten "f" ["x", "y"] s.graph = .ok f ∧ f.named = s.graph.named) ∧
      Handoff.flatten "f" ["x", "y"] s.graph = Handoff.flatten "f" ["x", "y"] s'.graph ∧
      s.graph.named = s'.graph.named := by
  have hsize : Listing.keyed.IsAddressable := by decide +kernel
  have hsize' : Listing.keyedAndMore.IsAddressable := by decide +kernel
  have hlifts : Listing.keyed.lifts (fun s => Listing.keyedAndMore.lifts fun s' =>
      s.graph == s'.graph && s.code != s'.code) = true := by
    simp only [Listing.lifts, Lifter.lift, Lift.all, Code.getElem?_index]
    decide +kernel
  obtain ⟨c, s, hbuild, hlift, hlifts⟩ := Listing.exists_of_lifts hlifts
  obtain ⟨c', s', hbuild', hlift', hcheck⟩ := Listing.exists_of_lifts hlifts
  rw [Bool.and_eq_true, beq_iff_eq, bne_iff_ne] at hcheck
  obtain ⟨hgraph, hcode⟩ := hcheck
  obtain ⟨hback, -, hsame⟩ :=
    named_of_flatten hsize hsize' hbuild hbuild' hlift hlift' "f" ["x", "y"]
  have hflatten : Handoff.flatten "f" ["x", "y"] s.graph =
      Handoff.flatten "f" ["x", "y"] s'.graph := by rw [hgraph]
  exact ⟨hsize, hsize', c, c', s, s', hbuild, hbuild', hlift, hlift', hcode, hback, hflatten,
    hsame hflatten⟩

end StackLift
