/-
# What stepping an instruction does

A computation of the lifter that succeeds is taken apart into what it does to the graph.  An
instruction from which control goes on takes values in its block and emits one; the other ones
end the block.

* `Lifter.steps` : the instructions that were stepped, as they were told;
* `Lifter.Aside` : two states that differ in the graph only;
* `Graph.Follows` : the machine with one stack does what is done in the block.
-/
import StackLift.Lifting.Run
import StackLift.Proofs.BitSet
import StackLift.Proofs.FlatStack

namespace StackLift

/-! ## What was told -/

/-- The name of the block and the instruction, if an event tells that one is stepped. -/
def Trace.Event.step? (e : Trace.Event) : Option (String × Instruction) :=
  match e.kind, e.fields with
  | .message (some .instruction), (_, .text name) :: (_, .instruction i) :: _ => some (name, i)
  | _, _ => none

/-- The instructions that were stepped, each with the name of its block. -/
def Lifter.steps (s : Lifter) : List (String × Instruction) :=
  s.events.toList.filterMap Trace.Event.step?

/-- The name of the block, if an event tells that a walk begins. -/
def Trace.Event.start? (e : Trace.Event) : Option String :=
  match e.kind, e.fields with
  | .message (some .block), (_, .text name) :: _ =>
    if e.title = "block start" then some name else none
  | _, _ => none

/-- Whether two states are within the same instruction. -/
structure Lifter.Within (s s' : Lifter) : Prop where
  options_eq : s'.options = s.options
  code_eq : s'.code = s.code
  current_eq : s'.current = s.current
  steps_eq : s'.steps = s.steps

/-- Whether two states differ in nothing but the graph and what was told about it. -/
structure Lifter.Aside (s s' : Lifter) : Prop extends Lifter.Within s s' where
  pending_eq : s'.pending = s.pending
  processed_eq : s'.processed = s.processed

namespace Lifter

theorem Within.trans {s s' s'' : Lifter} (h : s.Within s') (h' : s'.Within s'') : s.Within s'' :=
  ⟨h'.options_eq.trans h.options_eq, h'.code_eq.trans h.code_eq,
    h'.current_eq.trans h.current_eq, h'.steps_eq.trans h.steps_eq⟩

theorem Aside.refl (s : Lifter) : s.Aside s := ⟨⟨rfl, rfl, rfl, rfl⟩, rfl, rfl⟩

theorem Aside.trans {s s' s'' : Lifter} (h : s.Aside s') (h' : s'.Aside s'') : s.Aside s'' :=
  ⟨h.toWithin.trans h'.toWithin, h'.pending_eq.trans h.pending_eq,
    h'.processed_eq.trans h.processed_eq⟩

theorem steps_tell (s : Lifter) (e : Trace.Event) :
    (s.tell e).steps = s.steps ++ e.step?.toList := by
  simp only [steps, tell, Array.toList_push, List.filterMap_append, List.filterMap_cons,
    List.filterMap_nil]
  cases e.step? <;> rfl

theorem steps_tellAll (s : Lifter) {es : List Trace.Event} (hes : ∀ e ∈ es, e.step? = none) :
    (s.tellAll es).steps = s.steps := by
  rw [← List.append_nil s.steps, ← List.filterMap_eq_nil_iff.2 hes]
  simp [steps, tellAll]

/-- Telling an event about something else is told aside. -/
theorem aside_tell (s : Lifter) {e : Trace.Event} (he : e.step? = none) : s.Aside (s.tell e) :=
  ⟨⟨rfl, rfl, rfl, by rw [steps_tell, he]; simp⟩, rfl, rfl⟩

end Lifter

/-! ## Sequences of computations -/

theorem bind_of_ok {ε σ α β : Type} {x : EStateM ε σ α} {k : α → EStateM ε σ β} {s s' : σ} {a : α}
    (h : x s = .ok a s') : (x >>= k) s = k a s' := by
  change EStateM.bind x k s = _
  unfold EStateM.bind
  rw [h]

theorem bind_of_error {ε σ α β : Type} {x : EStateM ε σ α} {k : α → EStateM ε σ β} {s s' : σ}
    {e : ε} (h : x s = .error e s') : (x >>= k) s = .error e s' := by
  change EStateM.bind x k s = _
  unfold EStateM.bind
  rw [h]

/-- A computation may begin with a look at the state. -/
theorem get_bind {ε σ α : Type} (k : σ → EStateM ε σ α) (s : σ) :
    ((get : EStateM ε σ σ) >>= k) s = k s s := rfl

/-- A sequence of computations succeeds if each of them does. -/
theorem bind_eq_ok {ε σ α β : Type} {x : EStateM ε σ α} {k : α → EStateM ε σ β} {s s' : σ} {r : β} :
    (x >>= k) s = .ok r s' ↔ ∃ a s₁, x s = .ok a s₁ ∧ k a s₁ = .ok r s' := by
  cases h : x s with
  | ok a s₁ =>
    rw [bind_of_ok h]
    constructor
    · exact fun hk => ⟨a, s₁, rfl, hk⟩
    · rintro ⟨a', s₁', heq, hk⟩
      cases heq
      exact hk
  | error e s₁ =>
    rw [bind_of_error h]
    constructor
    · rintro ⟨⟩
    · rintro ⟨a', s₁', heq, -⟩
      cases heq

/-- A sequence of computations stops where one of them does. -/
theorem bind_eq_error {ε σ α β : Type} {x : EStateM ε σ α} {k : α → EStateM ε σ β} {s s' : σ}
    {e : ε} : (x >>= k) s = .error e s' ↔
      x s = .error e s' ∨ ∃ a s₁, x s = .ok a s₁ ∧ k a s₁ = .error e s' := by
  cases h : x s with
  | ok a s₁ =>
    rw [bind_of_ok h]
    constructor
    · exact fun hk => .inr ⟨a, s₁, rfl, hk⟩
    · rintro (heq | ⟨a', s₁', heq, hk⟩)
      · cases heq
      · cases heq
        exact hk
  | error e' s₁ =>
    rw [bind_of_error h]
    constructor
    · rintro ⟨⟩
      exact .inl rfl
    · rintro (heq | ⟨a', s₁', heq, -⟩)
      · cases heq
        rfl
      · cases heq

namespace Lift

variable {s s' : Lifter} {i : Instruction}

/-- An operation on the graph changes nothing else. -/
theorem onGraph_ok {α : Type} {f : Graph → α × Graph} {a : α} (h : onGraph f s = .ok a s') :
    s.Aside s' ∧ s'.graph = (f s.graph).2 ∧ a = (f s.graph).1 := by
  cases h
  exact ⟨⟨⟨rfl, rfl, rfl, rfl⟩, rfl, rfl⟩, rfl, rfl⟩

theorem tellUnderflow_ok {v : Operand} (h : tellUnderflow v s = .ok () s') :
    s.Aside s' ∧ s'.graph = s.graph := by
  obtain ⟨s₁, s₂, hget, h⟩ := bind_eq_ok.1 h
  cases hget
  cases v with
  | none => cases h
  | some u =>
    dsimp only at h
    cases hphi : (s.graph.definition u).phi? with
    | some p =>
      rw [hphi] at h
      cases h
      exact ⟨s.aside_tell rfl, rfl⟩
    | none =>
      rw [hphi] at h
      cases h
      exact ⟨.refl _, rfl⟩

/-- An operand that is got from the graph is told about if it is an entry slot. -/
theorem onGraph_tellUnderflow_ok {f : Graph → Operand × Graph} {v : Operand}
    (h : (do let v ← onGraph f; tellUnderflow v; return v : Lift Operand) s = .ok v s') :
    s.Aside s' ∧ s'.graph = (f s.graph).2 ∧ v = (f s.graph).1 := by
  obtain ⟨v', s₁, hgraph, h⟩ := bind_eq_ok.1 h
  obtain ⟨haside, heq, hv⟩ := onGraph_ok hgraph
  obtain ⟨_, s₂, htell, h⟩ := bind_eq_ok.1 h
  cases h
  obtain ⟨haside', heq'⟩ := tellUnderflow_ok htell
  exact ⟨haside.trans haside', heq'.trans heq, hv⟩

/-- Popping pops in the graph. -/
theorem pop_ok {v : Operand} (h : pop s = .ok v s') :
    s.Aside s' ∧ s'.graph = (s.graph.pop s.current s.line).2 ∧
      v = (s.graph.pop s.current s.line).1 :=
  onGraph_tellUnderflow_ok (f := (·.pop s.current s.line)) h

theorem peek_ok {v : Operand} (h : peek s = .ok v s') :
    s.Aside s' ∧ s'.graph = (s.graph.peek s.current s.line).2 ∧
      v = (s.graph.peek s.current s.line).1 :=
  onGraph_tellUnderflow_ok (f := (·.peek s.current s.line)) h

theorem top_ok {pops : Bool} {v : Operand} (h : (if pops then pop else peek) s = .ok v s') :
    s.Aside s' ∧ s'.graph = (s.graph.top pops s.current s.line).2 ∧
      v = (s.graph.top pops s.current s.line).1 := by
  cases pops with
  | true => exact pop_ok h
  | false => exact peek_ok h

theorem takes_of_pop {v : Operand} (h : pop s = .ok v s') :
    s.Aside s' ∧ Graph.Takes s.current s.graph [v] s'.graph := by
  obtain ⟨haside, hgraph, hv⟩ := pop_ok h
  rw [hgraph, hv]
  exact ⟨haside, .pop (.nil _)⟩

/-- Emitting a value emits it in the graph. -/
theorem pushIn_ok {b : BlockId} {e : Expr} (h : pushIn b e s = .ok () s') :
    s.Aside s' ∧ s'.graph = s.graph.emit b s.line e := by
  cases h
  exact ⟨⟨⟨rfl, rfl, rfl, rfl⟩, rfl, rfl⟩, rfl⟩

theorem pushNew_ok {e : Expr} (h : pushNew e s = .ok () s') :
    s.Aside s' ∧ s'.graph = s.graph.emit s.current s.line e := by
  cases h
  exact ⟨⟨⟨rfl, rfl, rfl, rfl⟩, rfl, rfl⟩, rfl⟩

theorem localName_ok {name : String} (h : localName i s = .ok name s') : s' = s := by
  obtain ⟨s₁, s₂, hget, h⟩ := bind_eq_ok.1 h
  cases hget
  cases hpick : pick? s.code.varnames i.arg with
  | some name =>
    rw [hpick] at h
    cases h
    rfl
  | none =>
    rw [hpick] at h
    cases h

theorem keywordName_ok {v : Operand} {name : Text} (h : keywordName i v s = .ok name s') :
    s' = s := by
  obtain ⟨s₁, s₂, hget, h⟩ := bind_eq_ok.1 h
  cases hget
  generalize (v.bind fun v => (s.graph.definition v).expr) = e at h
  match e, h with
  | some (.const (.str _)), rfl => rfl

/-! ## Taking operands -/

/-- Keys and values are told apart from the beginning. -/
theorem withoutKeys_append {α : Type} {l l' : List α} {n : Nat} (h : l.length = 2 * n) :
    withoutKeys (l ++ l') = withoutKeys l ++ withoutKeys l' := by
  induction n generalizing l with
  | zero =>
    rw [List.length_eq_zero_iff.1 h]
    rfl
  | succ n ih =>
    match l, h with
    | k :: v :: rest, h =>
      have hrest : rest.length = 2 * n := by
        simp only [List.length_cons] at h
        omega
      rw [List.cons_append, List.cons_append, withoutKeys, withoutKeys, ih hrest, List.cons_append]

/-- Popping arguments takes as many. -/
theorem popArgs_ok {n : Nat} {after vs : List Operand} (h : popArgs n after s = .ok vs s') :
    s.Aside s' ∧ ∃ us, us.length = n ∧ vs = us ++ after ∧
      Graph.Takes s.current s.graph us s'.graph := by
  induction n generalizing s after with
  | zero =>
    cases h
    exact ⟨.refl _, [], rfl, rfl, .nil _⟩
  | succ n ih =>
    obtain ⟨v, s₁, hpop, h⟩ := bind_eq_ok.1 h
    obtain ⟨haside, htakes⟩ := takes_of_pop hpop
    obtain ⟨haside', us, hlength, rfl, htakes'⟩ := ih h
    rw [haside.current_eq] at htakes'
    exact ⟨haside.trans haside', us ++ [v], by simp [hlength], by simp, htakes.append htakes'⟩

/-- Popping keywords takes a key and a value for each. -/
theorem popKeywords_ok {n : Nat} {after kws : List Keyword}
    (h : popKeywords i n after s = .ok kws s') :
    s.Aside s' ∧ ∃ us, us.length = 2 * n ∧
      kws.map (·.value) = withoutKeys us ++ after.map (·.value) ∧
      Graph.Takes s.current s.graph us s'.graph := by
  induction n generalizing s after with
  | zero =>
    cases h
    exact ⟨.refl _, [], rfl, rfl, .nil _⟩
  | succ n ih =>
    obtain ⟨value, s₁, hpop, h⟩ := bind_eq_ok.1 h
    obtain ⟨haside₁, htakes₁⟩ := takes_of_pop hpop
    obtain ⟨key, s₂, hpop', h⟩ := bind_eq_ok.1 h
    obtain ⟨haside₂, htakes₂⟩ := takes_of_pop hpop'
    obtain ⟨name, s₃, hname, h⟩ := bind_eq_ok.1 h
    cases keywordName_ok hname
    obtain ⟨haside, us, hlength, hvalues, htakes⟩ := ih h
    rw [haside₁.current_eq] at htakes₂
    rw [(haside₁.trans haside₂).current_eq] at htakes
    refine ⟨(haside₁.trans haside₂).trans haside, us ++ [key, value], ?_, ?_,
      (htakes₁.append htakes₂).append htakes⟩
    · simp only [List.length_append, hlength, List.length_cons, List.length_nil]
      omega
    · rw [hvalues, withoutKeys_append hlength]
      simp [withoutKeys]

/-- Once its operands were taken, an effect emits the value that is made of them. -/
theorem emits_of_takes {e : Effect} {ex : Expr} {vs : List Operand} {s₁ : Lifter}
    (haside : s.Aside s₁) (htakes : Graph.Takes s.current s.graph vs s₁.graph)
    (hlength : vs.length = e.plain i + 2 * e.keyed i) (hphi : ∀ p, ex ≠ .phi p)
    (hops : ex.operands = e.operands i vs) (h : pushNew ex s₁ = .ok () s') :
    s.Aside s' ∧ Graph.Emits s.current i e s.graph s'.graph := by
  obtain ⟨haside', hgraph⟩ := pushNew_ok h
  rw [haside.current_eq] at hgraph
  exact ⟨haside.trans haside', vs, s₁.graph, s₁.line, ex, htakes, hlength, hphi, hops, hgraph⟩

/-- A load emits a value without operands. -/
theorem emits_of_pushNew {e : Effect} {ex : Expr} (hplain : e.plain i = 0) (hkeyed : e.keyed i = 0)
    (hphi : ∀ p, ex ≠ .phi p) (hops : ex.operands = []) (h : pushNew ex s = .ok () s') :
    s.Aside s' ∧ Graph.Emits s.current i e s.graph s'.graph := by
  refine emits_of_takes (.refl s) (.nil _) ?_ hphi ?_ h
  · rw [hplain, hkeyed]
    rfl
  · rw [hops, Effect.operands, List.take_nil, List.drop_nil]
    rfl

theorem emits_of_unary {e : Effect} {o : Operator} (hplain : e.plain i = 1)
    (hkeyed : e.keyed i = 0) (h : unary o s = .ok () s') :
    s.Aside s' ∧ Graph.Emits s.current i e s.graph s'.graph := by
  obtain ⟨v, s₁, hpop, h⟩ := bind_eq_ok.1 h
  obtain ⟨haside, htakes⟩ := takes_of_pop hpop
  refine emits_of_takes haside htakes ?_ (by rintro p ⟨⟩) ?_ h
  · rw [hplain, hkeyed]
    rfl
  · rw [Effect.operands, hplain]
    rfl

theorem emits_of_binary {e : Effect} {o : Operator} (hplain : e.plain i = 2)
    (hkeyed : e.keyed i = 0) (h : binary o s = .ok () s') :
    s.Aside s' ∧ Graph.Emits s.current i e s.graph s'.graph := by
  obtain ⟨right, s₁, hpop₁, h⟩ := bind_eq_ok.1 h
  obtain ⟨haside₁, htakes₁⟩ := takes_of_pop hpop₁
  obtain ⟨left, s₂, hpop₂, h⟩ := bind_eq_ok.1 h
  obtain ⟨haside₂, htakes₂⟩ := takes_of_pop hpop₂
  rw [haside₁.current_eq] at htakes₂
  refine emits_of_takes (haside₁.trans haside₂) (htakes₁.append htakes₂) ?_ (by rintro p ⟨⟩) ?_ h
  · rw [hplain, hkeyed]
    rfl
  · rw [Effect.operands, hplain]
    rfl

theorem emits_of_storeLocal (h : storeLocal i s = .ok () s') :
    s.Aside s' ∧ Graph.Emits s.current i .storeLocal s.graph s'.graph := by
  obtain ⟨name, s₀, hname, h⟩ := bind_eq_ok.1 h
  cases localName_ok hname
  obtain ⟨v, s₁, hpop, h⟩ := bind_eq_ok.1 h
  obtain ⟨haside, htakes⟩ := takes_of_pop hpop
  exact emits_of_takes haside htakes rfl (by rintro p ⟨⟩) rfl h

theorem emits_of_call (h : call i s = .ok () s') :
    s.Aside s' ∧ Graph.Emits s.current i .call s.graph s'.graph := by
  obtain ⟨kws, s₁, hkws, h⟩ := bind_eq_ok.1 h
  obtain ⟨haside₁, us, hus, hvalues, htakes₁⟩ := popKeywords_ok hkws
  obtain ⟨args, s₂, hargs, h⟩ := bind_eq_ok.1 h
  obtain ⟨haside₂, as, has, rfl, htakes₂⟩ := popArgs_ok hargs
  obtain ⟨callee, s₃, hpop, h⟩ := bind_eq_ok.1 h
  obtain ⟨haside₃, htakes₃⟩ := takes_of_pop hpop
  have hasides := haside₁.trans haside₂
  rw [haside₁.current_eq] at htakes₂
  rw [hasides.current_eq] at htakes₃
  refine emits_of_takes (hasides.trans haside₃) ((htakes₁.append htakes₂).append htakes₃) ?_
    (by rintro p ⟨⟩) ?_ h
  · simp only [List.length_append, List.length_singleton, hus, has, Effect.plain, Effect.keyed]
    omega
  · -- the callee and the arguments come first, then the keys with their values
    have hlength : ([callee] ++ as).length = 1 + positionalCount i.arg := by
      simp [has, Nat.add_comm]
    rw [Effect.operands, Effect.plain, ← List.append_assoc, ← hlength, List.take_left,
      List.drop_left]
    simp only [Expr.operands, hvalues, List.append_nil, List.map_nil]
    cases callee <;> rfl

/-- An instruction from which control goes on takes values in its block and emits one. -/
theorem perform_ok {e : Effect} (hflow : e.flow = .goesOn) (hne : e ≠ .nothing)
    (h : perform i e s = .ok () s') :
    s.Aside s' ∧ Graph.Emits s.current i e s.graph s'.graph := by
  cases e with
  | nothing => exact absurd rfl hne
  | loadConst =>
    obtain ⟨s₁, s₂, hget, h⟩ := bind_eq_ok.1 h
    cases hget
    cases hpick : pick? s.code.consts i.arg with
    | some c =>
      rw [hpick] at h
      exact emits_of_pushNew rfl rfl (by rintro p ⟨⟩) rfl h
    | none =>
      rw [hpick] at h
      cases h
  | loadLocal =>
    obtain ⟨name, s₀, hname, h⟩ := bind_eq_ok.1 h
    cases localName_ok hname
    exact emits_of_pushNew rfl rfl (by rintro p ⟨⟩) rfl h
  | loadGlobal =>
    obtain ⟨s₁, s₂, hget, h⟩ := bind_eq_ok.1 h
    cases hget
    cases hpick : pick? s.code.names i.arg with
    | some c =>
      rw [hpick] at h
      exact emits_of_pushNew rfl rfl (by rintro p ⟨⟩) rfl h
    | none =>
      rw [hpick] at h
      cases h
  | storeLocal => exact emits_of_storeLocal h
  | unary o => exact emits_of_unary rfl rfl h
  | binary o => exact emits_of_binary rfl rfl h
  | compare =>
    unfold perform compare at h
    cases hpick : pick? Operator.comparisons i.arg with
    | some o =>
      rw [hpick] at h
      exact emits_of_binary rfl rfl h
    | none =>
      rw [hpick] at h
      cases h
  | call => exact emits_of_call h
  | forLoop => cases hflow
  | branch pops jumpsOn => cases hflow
  | jump => cases hflow
  | ret => cases hflow

/-! ## Flow of control -/

/-- Asking for the block at an offset asks for it in the graph. -/
theorem ensure_ok {o : Int} {b : BlockId} (h : ensure o s = .ok b s') :
    s.Aside s' ∧ s'.graph = (s.graph.ensure o).2 ∧ b = (s.graph.ensure o).1 :=
  onGraph_ok h

/-- Marking a block changes only what is to be walked. -/
theorem schedule_ok {b : BlockId} (h : schedule b s = .ok () s') :
    ∃ pending, s.pending.insert (s.graph.offset b) = .ok () pending ∧ s' = { s with pending } := by
  obtain ⟨s₁, s₂, hget, h⟩ := bind_eq_ok.1 h
  cases hget
  cases hinsert : s.pending.insert (s.graph.offset b) with
  | ok u pending =>
    rw [hinsert] at h
    cases h
    exact ⟨pending, rfl, rfl⟩
  | error f pending =>
    rw [hinsert] at h
    cases h

/-- Leaving the current block leaves it in the graph. -/
theorem terminate_ok {t : Terminator} (h : terminate t s = .ok () s') :
    ∃ graph, s.graph.terminate s.current s.line t = .ok graph ∧ s' = { s with graph } := by
  obtain ⟨s₁, s₂, hget, h⟩ := bind_eq_ok.1 h
  cases hget
  cases hterm : s.graph.terminate s.current s.line t with
  | ok graph =>
    rw [hterm] at h
    cases h
    exact ⟨graph, rfl, rfl⟩
  | error e =>
    rw [hterm] at h
    cases h

/-- Whether blocks were marked one after the other. -/
inductive Schedules : List BlockId → Lifter → Lifter → Prop
  | nil (s : Lifter) : Schedules [] s s
  | cons {b : BlockId} {bs : List BlockId} {s s₁ s' : Lifter} (h : schedule b s = .ok () s₁)
      (hrest : Schedules bs s₁ s') : Schedules (b :: bs) s s'

/-- Whether the targets of a terminator were marked and the current block was left by it. -/
def Leaves (t : Terminator) (s s' : Lifter) : Prop :=
  ∃ s₁, Schedules t.targets s s₁ ∧ terminate t s₁ = .ok () s'

theorem jumpTo_ok {b : BlockId} (h : jumpTo b s = .ok () s') : Leaves (.jump b) s s' := by
  obtain ⟨⟨⟩, s₁, hsched, h⟩ := bind_eq_ok.1 h
  exact ⟨s₁, .cons hsched (.nil _), h⟩

theorem branchTo_ok {cond : Operand} {b b' : BlockId} (h : branchTo cond b b' s = .ok () s') :
    Leaves (.branch cond b b') s s' := by
  obtain ⟨⟨⟩, s₁, hsched₁, h⟩ := bind_eq_ok.1 h
  obtain ⟨⟨⟩, s₂, hsched₂, h⟩ := bind_eq_ok.1 h
  exact ⟨s₂, .cons hsched₁ (.cons hsched₂ (.nil _)), h⟩

/-- A return leaves with what it pops.  Only where that is the constant none, the operand is left
out. -/
theorem ret_of_pop {v : Operand} {s₁ : Lifter} (hpop : pop s = .ok v s₁) :
    ∃ t, (t = .retVoid ∨ t = .ret v) ∧ ret s = terminate t s₁ := by
  rw [ret, bind_of_ok hpop, get_bind]
  cases v.bind fun v => (s₁.graph.definition v).expr with
  | none => exact ⟨_, .inr rfl, rfl⟩
  | some e =>
    cases e with
    | const c =>
      cases c with
      | none => exact ⟨_, .inl rfl, rfl⟩
      | _ => exact ⟨_, .inr rfl, rfl⟩
    | _ => exact ⟨_, .inr rfl, rfl⟩

/-- A return pops what is returned and leaves. -/
theorem ret_ok (h : ret s = .ok () s') : ∃ v s₁ t, pop s = .ok v s₁ ∧
    (t = .retVoid ∨ t = .ret v) ∧ Leaves t s₁ s' := by
  obtain ⟨v, s₁, hpop, -⟩ := bind_eq_ok.1 h
  obtain ⟨t, ht, hret⟩ := ret_of_pop hpop
  refine ⟨v, s₁, t, hpop, ht, s₁, ?_, hret.symm.trans h⟩
  -- a return has no targets
  rcases ht with rfl | rfl <;> exact .nil s₁

/-- A jump asks for its target and leaves. -/
theorem jump_ok (h : jump i s = .ok () s') :
    ∃ a s₁, ensure i.target s = .ok a s₁ ∧ Leaves (.jump a) s₁ s' := by
  obtain ⟨a, s₁, hensure, h⟩ := bind_eq_ok.1 h
  exact ⟨a, s₁, hensure, jumpTo_ok h⟩

/-- A conditional jump takes its condition, asks for the blocks and leaves. -/
theorem branch_ok {pops jumpsOn : Bool} (h : branch pops jumpsOn i s = .ok () s') :
    ∃ cond s₁ o o' a s₂ a' s₃, (if pops then pop else peek) s = .ok cond s₁ ∧
      (o = i.target ∧ o' = i.next ∨ o = i.next ∧ o' = i.target) ∧ ensure o s₁ = .ok a s₂ ∧
      ensure o' s₂ = .ok a' s₃ ∧ Leaves (.branch cond a a') s₃ s' := by
  have key : ∃ cond s₁, (if pops then pop else peek) s = .ok cond s₁ ∧
      (if jumpsOn then do
        let target ← ensure i.target
        let next ← ensure i.next
        branchTo cond target next
      else do
        let next ← ensure i.next
        let target ← ensure i.target
        branchTo cond next target) s₁ = .ok () s' := by
    cases pops with
    | true => exact bind_eq_ok.1 h
    | false => exact bind_eq_ok.1 h
  obtain ⟨cond, s₁, hcond, h⟩ := key
  cases jumpsOn with
  | true =>
    obtain ⟨a, s₂, ha, h⟩ := bind_eq_ok.1 h
    obtain ⟨a', s₃, ha', h⟩ := bind_eq_ok.1 h
    exact ⟨cond, s₁, _, _, a, s₂, a', s₃, hcond, .inl ⟨rfl, rfl⟩, ha, ha', branchTo_ok h⟩
  | false =>
    obtain ⟨a, s₂, ha, h⟩ := bind_eq_ok.1 h
    obtain ⟨a', s₃, ha', h⟩ := bind_eq_ok.1 h
    exact ⟨cond, s₁, _, _, a, s₂, a', s₃, hcond, .inr ⟨rfl, rfl⟩, ha, ha', branchTo_ok h⟩

/-- The header of a loop checks its iterator and leaves; the body, which was not walked yet, gets
the next element. -/
theorem forLoop_ok (h : forLoop i s = .ok () s') :
    ∃ it s₁ exit s₂ body s₃ s₄ cond s₅ s₆, peek s = .ok it s₁ ∧
      ensure i.target s₁ = .ok exit s₂ ∧ ensure i.next s₂ = .ok body s₃ ∧
      s₃.processed.contains (s₃.graph.offset body) = .ok false ∧
      pushNew (.call (some (.operator .iterValid)) [it] []) s₃ = .ok () s₄ ∧
      pop s₄ = .ok cond s₅ ∧ Leaves (.branch cond body exit) s₅ s₆ ∧
      pushIn body (.call (some (.operator .iterNext)) [it] []) s₆ = .ok () s' := by
  obtain ⟨it, s₁, hpeek, h⟩ := bind_eq_ok.1 h
  obtain ⟨exit, s₂, hexit, h⟩ := bind_eq_ok.1 h
  obtain ⟨body, s₃, hbody, h⟩ := bind_eq_ok.1 h
  obtain ⟨_, _, hget, h⟩ := bind_eq_ok.1 h
  cases hget
  obtain ⟨walked, s₃', hwalked, h⟩ := bind_eq_ok.1 h
  cases hcontains : s₃.processed.contains (s₃.graph.offset body) with
  | error f =>
    rw [hcontains] at hwalked
    cases hwalked
  | ok known =>
    rw [hcontains] at hwalked
    cases hwalked
    cases walked with
    | true =>
      -- a body that was walked before its header stops the lift
      obtain ⟨_, _, hstop, -⟩ := bind_eq_ok.1 h
      cases hstop
    | false =>
      obtain ⟨_, s₄, hnew, h⟩ := bind_eq_ok.1 h
      obtain ⟨cond, s₅, hpop, h⟩ := bind_eq_ok.1 h
      obtain ⟨_, s₆, hleave, h⟩ := bind_eq_ok.1 h
      exact ⟨it, s₁, exit, s₂, body, s₃, s₄, cond, s₅, s₆, hpeek, hexit, hbody, hcontains, hnew,
        hpop, branchTo_ok hleave, h⟩

/-! ## Stepping -/

/-- Whether a state is another one in which an instruction is about to be performed. -/
structure Begins (i : Instruction) (s s' : Lifter) : Prop where
  options_eq : s'.options = s.options
  code_eq : s'.code = s.code
  graph_eq : s'.graph = s.graph
  pending_eq : s'.pending = s.pending
  processed_eq : s'.processed = s.processed
  current_eq : s'.current = s.current
  line_eq : s'.line = i.line
  steps_eq : s'.steps = s.steps ++ [(s.graph.nameOf s.current, i)]

/-- Stepping an instruction tells about it and performs its effect, if it has one. -/
theorem step_cases (i : Instruction) (s : Lifter) :
    (i.op.effect? = none ∧
        ∃ s', step i s = .error (.error (.unsupported i)) s' ∧ s'.line = i.line) ∨
      ∃ e s₁, i.op.effect? = some e ∧ Begins i s s₁ ∧ step i s = perform i e s₁ := by
  cases he : i.op.effect? with
  | none =>
    refine .inl ⟨rfl, ?_⟩
    unfold step
    rw [he]
    exact ⟨_, rfl, rfl⟩
  | some e =>
    obtain ⟨s₁, hstep, hbegins⟩ : ∃ s₁, step i s = perform i e s₁ ∧ Begins i s s₁ := by
      unfold step
      rw [he]
      exact ⟨_, rfl, rfl, rfl, rfl, rfl, rfl, rfl, rfl, Lifter.steps_tell _ _⟩
    exact .inr ⟨e, s₁, rfl, hbegins, hstep⟩

theorem step_ok (h : step i s = .ok () s') :
    ∃ e s₁, i.op.effect? = some e ∧ Begins i s s₁ ∧ perform i e s₁ = .ok () s' := by
  obtain ⟨-, s₁, hstop, -⟩ | ⟨e, s₁, he, hbegins, hstep⟩ := step_cases i s
  · rw [hstop] at h
    cases h
  · exact ⟨e, s₁, he, hbegins, hstep ▸ h⟩

end Lift

end StackLift
