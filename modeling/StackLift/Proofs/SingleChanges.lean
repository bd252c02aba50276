/-
# A lift changes its graph by one operation at a time

A passage may show as few states as one likes.  The passages of the lifter show all that matter:
from one state to the next the graph stays as it is, is changed by one operation, or a phi of it
gets a value or is marked as complete.  Nothing happens to a graph between two states that are
shown, and the last one is the one that the lift ends in.

* `Leads` : a list of states that leads from one state to another;
* `Passage.Gapless` : the states that a passage shows lead to where it ends;
* `Graph.OneChange` : what can be between two graphs that are shown one after the other;
* `Passing.Stepwise` : a passage that changes the graph by one operation at a time;
* `Lifter.gapless_passage` : a whole lift.
-/
import Mathlib.Data.List.Chain
import StackLift.Proofs.EndlessStack
import StackLift.Proofs.Passage

namespace StackLift

/-! ## Lists that lead from one state to another -/

/-- Whether a list of states leads from one state to another: each state is in a relation to the
next one, and the list ends with the state it leads to. -/
structure Leads {σ : Type} (R : σ → σ → Prop) (s : σ) (l : List σ) (s' : σ) : Prop where
  isChain : (s :: l).IsChain R
  last_eq : l.getLastD s = s'

namespace Leads

variable {σ τ : Type} {R : σ → σ → Prop} {R' : τ → τ → Prop} {s s' s'' : σ} {l l' : List σ}

/-- No states lead nowhere. -/
theorem nil (s : σ) : Leads R s [] s := ⟨.singleton s, rfl⟩

/-- A way begins with its first state, and goes on from there. -/
theorem cons_iff : Leads R s (s' :: l) s'' ↔ R s s' ∧ Leads R s' l s'' := by
  constructor
  · rintro ⟨hchain, hlast⟩
    obtain ⟨h, hchain⟩ := List.isChain_cons_cons.1 hchain
    exact ⟨h, hchain, List.getLastD_cons.symm.trans hlast⟩
  · rintro ⟨h, hchain, hlast⟩
    exact ⟨.cons_cons h hchain, List.getLastD_cons.trans hlast⟩

/-- One more state at the beginning. -/
theorem cons (h : R s s') (hl : Leads R s' l s'') : Leads R s (s' :: l) s'' := cons_iff.2 ⟨h, hl⟩

/-- A single state is led to by itself. -/
theorem single (h : R s s') : Leads R s [s'] s' := cons h (nil s')

/-- What holds of the first state holds of the last one, if each step keeps it. -/
theorem keep {I : σ → Prop} (hl : Leads R s l s') (hI : ∀ a b, R a b → I a → I b) (hs : I s) :
    I s' := by
  induction l generalizing s with
  | nil =>
    obtain rfl : s = s' := hl.last_eq
    exact hs
  | cons a l ih =>
    obtain ⟨ha, hl⟩ := cons_iff.1 hl
    exact ih hl (hI s a ha hs)

/-- One way after another. -/
theorem append (hl : Leads R s l s') (hl' : Leads R s' l' s'') : Leads R s (l ++ l') s'' := by
  induction l generalizing s with
  | nil =>
    obtain rfl : s = s' := hl.last_eq
    exact hl'
  | cons a l ih =>
    obtain ⟨ha, hl⟩ := cons_iff.1 hl
    exact cons ha (ih hl)

/-- A way may be seen through a function on states. -/
theorem map (f : σ → τ) (hf : ∀ a b, R a b → R' (f a) (f b)) (hl : Leads R s l s') :
    Leads R' (f s) (l.map f) (f s') := by
  induction l generalizing s with
  | nil =>
    obtain rfl : s = s' := hl.last_eq
    exact nil (f s)
  | cons a l ih =>
    obtain ⟨ha, hl⟩ := cons_iff.1 hl
    exact cons (hf s a ha) (ih hl)

end Leads

/-! ## Passages without gaps -/

namespace Passage

variable {ε σ α β : Type} {R : σ → σ → Prop} {s : σ}

/-- Whether the states that a passage shows lead from where it starts to where it ends. -/
def Gapless (R : σ → σ → Prop) (p : Passage ε σ α) (s : σ) : Prop :=
  Leads R s (p.states s) (after (p.result s))

/-- Where nothing is done there is no gap. -/
theorem gapless_pure (a : α) (s : σ) : Gapless R (pure a : Passage ε σ α) s := Leads.nil s

/-- The states on the way have to lead to one from which the end is reached at once. -/
theorem gapless_via {between : σ → List σ} {x : EStateM ε σ α} {s' : σ}
    (hbetween : Leads R s (between s) s') (h : R s' (after (x s))) :
    Gapless R (via between x) s := hbetween.append (.single h)

/-- A single computation may change the state once. -/
theorem gapless_stride {x : EStateM ε σ α} (h : R s (after (x s))) : Gapless R (stride x) s :=
  gapless_via (.nil s) h

/-- Two passages leave no gap if the second one has none from where the first one ends. -/
theorem Gapless.bind {p : Passage ε σ α} {k : α → Passage ε σ β} (hp : Gapless R p s)
    (hk : ∀ a s', p.result s = .ok a s' → Gapless R (k a) s') : Gapless R (p >>= k) s := by
  change Leads R s (Passage.bind p k s).1 (after (Passage.bind p k s).2)
  unfold Passage.bind
  unfold Gapless states result at hp
  rcases heq : p s with ⟨seen, ⟨a, s'⟩ | ⟨e, s'⟩⟩
  · rw [heq] at hp
    exact hp.append (hk a s' (congrArg Prod.snd heq))
  · -- where the first passage stops, both have ended
    rw [heq] at hp
    exact hp

/-- A loop leaves no gap if none of its rounds does. -/
theorem gapless_forM {l : List α} {f : α → Passage ε σ PUnit}
    (hf : ∀ a ∈ l, ∀ s, Gapless R (f a) s) : Gapless R (forM l f) s := by
  induction l generalizing s with
  | nil => exact gapless_pure _ s
  | cons a l ih =>
    rw [List.forM_cons]
    exact (hf a List.mem_cons_self s).bind fun _ s' _ =>
      ih fun d hd => hf d (List.mem_cons_of_mem a hd)

end Passage

/-! ## Changes to a graph -/

namespace Graph

/-- Whether a graph is another one as it was, after one operation, or after one change to a phi. -/
inductive OneChange : Graph → Graph → Prop
  | nothing (g : Graph) : OneChange g g
  | perform (g : Graph) (op : Operation) : OneChange g (g.perform op)
  | putIncoming (g : Graph) (v : ValueId) (b : BlockId) (value : Operand) :
    OneChange g (g.putIncoming v b value)
  | markComplete (g : Graph) (v : ValueId) : OneChange g (g.markComplete v)

namespace OneChange

variable {g g' : Graph}

/-- A graph that was not changed was changed once at most. -/
theorem of_eq (h : g' = g) : g.OneChange g' := h ▸ nothing g

/-- Leaving a block is one operation, with the edges that it makes. -/
theorem of_terminate {b : BlockId} {line : Int} {t : Terminator}
    (hok : g.terminate b line t = .ok g') : g.OneChange g' := by
  have h := perform g (.terminate b line t)
  rwa [Graph.perform, hok] at h

/-- Removing a block is one operation. -/
theorem of_remove {b : BlockId} (hok : g.remove b = .ok g') : g.OneChange g' := by
  have h := perform g (.remove b)
  rwa [Graph.perform, hok] at h

/-- Taking the top of the stack, or looking at it, is one operation. -/
theorem of_top (g : Graph) (pops : Bool) (b : BlockId) (line : Int) :
    g.OneChange (g.top pops b line).2 := by
  cases pops with
  | true => exact perform g (.call b (.pop line))
  | false => exact perform g (.call b (.peek line))

end OneChange

/-- The graphs on the way lead to the one without the blocks, if all of them can be removed. -/
theorem leads_discards {g g' : Graph} {dead : List BlockId}
    (hok : dead.foldlM remove g = .ok g') : Leads OneChange g (g.discards dead) g' := by
  induction dead generalizing g with
  | nil =>
    cases hok
    exact .nil _
  | cons b dead ih =>
    cases hremove : g.remove b with
    | error i =>
      rw [List.foldlM_cons, hremove] at hok
      cases hok
    | ok g₁ =>
      rw [List.foldlM_cons, hremove] at hok
      cases remove_eq_ok hremove
      exact .cons (.of_remove hremove) (ih hok)

end Graph

/-! ## The lifter -/

/-- Whether the graph of a lifter was changed once at most; all else may have changed. -/
def Lifter.OneChange (s s' : Lifter) : Prop := s.graph.OneChange s'.graph

namespace Lift

variable {α : Type} {s s' : Lifter}

/-- A check changes nothing, whether or not it fails. -/
theorem after_orFault (r : Except Fault α) (s : Lifter) : after (orFault r s) = s := by
  cases r <;> rfl

/-- Looking up a local variable changes nothing. -/
theorem after_localName (i : Instruction) (s : Lifter) : after (localName i s) = s := by
  unfold localName
  rw [get_bind]
  cases pick? s.code.varnames i.arg <;> rfl

/-- Reading the name of a keyword changes nothing. -/
theorem after_keywordName (i : Instruction) (v : Operand) (s : Lifter) :
    after (keywordName i v s) = s := by
  unfold keywordName
  rw [get_bind]
  cases v.bind fun v => (s.graph.definition v).expr with
  | none => rfl
  | some e =>
    cases e with
    | const x => cases x <;> rfl
    | _ => rfl

/-- The check of the parameters changes nothing. -/
theorem after_checkSignature (signature : Signature) (s : Lifter) :
    after (checkSignature signature s) = s := by
  rcases checkSignature_cases signature s with ⟨e, heq⟩ | heq <;> rw [heq] <;> rfl

/-- The check at the end does not change the graph. -/
theorem graph_after_finish (s : Lifter) : (after (finish s)).graph = s.graph := by
  unfold finish
  rw [get_bind]
  cases s.graph.verifyPhis <;> rfl

/-- The graph is the one in which the completion of phis has ended, whether or not it succeeds. -/
theorem graph_after_completePhis (s : Lifter) :
    (after (completePhis s)).graph =
      (after (s.graph.completePhis (depthLimit s.code))).graph := by
  unfold completePhis
  rw [get_bind]
  rcases s.graph.completePhis (depthLimit s.code) with ⟨u, r⟩ | ⟨stop, r⟩
  · rfl
  · cases stop <;> rfl

/-- Telling about a value that was taken does not change the graph. -/
theorem graph_after_taken (v : Operand) (s : Lifter) :
    (after ((tellUnderflow v >>= fun _ => pure v : Lift Operand) s)).graph = s.graph := by
  refine after_bind (I := fun s' : Lifter => s'.graph = s.graph) ?_ fun _ _ _ h => h
  unfold tellUnderflow
  rw [get_bind]
  cases v with
  | none => rfl
  | some u =>
    dsimp only
    cases (s.graph.definition u).phi? <;> rfl

/-- A look at the stack, or a pop, is told about and changes the graph as it should. -/
theorem graph_after_top (pops : Bool) (s : Lifter) :
    (after ((if pops then pop else peek) s)).graph =
      (s.graph.top pops s.current s.line).2 := by
  cases pops <;> exact graph_after_taken _ _

/-- Marking a block does not change the graph. -/
theorem after_schedule (b : BlockId) (s : Lifter) :
    ∃ pending, after (schedule b s) = { s with pending } := by
  unfold schedule
  rw [get_bind]
  cases s.pending.insert (s.graph.offset b) <;> exact ⟨_, rfl⟩

/-! ### One change each -/

theorem oneChange_top (pops : Bool) (s : Lifter) :
    s.OneChange (after ((if pops then pop else peek) s)) := by
  rw [Lifter.OneChange, graph_after_top]
  exact .of_top _ _ _ _

/-- A block that was left before stays as it is. -/
theorem oneChange_terminate (t : Terminator) (s : Lifter) :
    s.OneChange (after (terminate t s)) := by
  unfold terminate
  rw [get_bind]
  cases hok : s.graph.terminate s.current s.line t with
  | error e => exact .nothing s.graph
  | ok graph => exact .of_terminate hok

/-- Marking a block before something else adds no change. -/
theorem oneChange_schedule_bind {b : BlockId} {k : Unit → Lift α}
    (hk : ∀ s : Lifter, s.OneChange (after (k () s))) (s : Lifter) :
    s.OneChange (after ((schedule b >>= k) s)) := by
  cases hok : schedule b s with
  | error e s₁ =>
    -- a block that cannot be marked is not left for, and some marks may have been made
    obtain ⟨pending, heq⟩ := after_schedule b s
    rw [hok] at heq
    rw [bind_of_error hok]
    cases heq
    exact .nothing s.graph
  | ok u s₁ =>
    obtain ⟨pending, -, rfl⟩ := schedule_ok hok
    rw [bind_of_ok hok]
    exact hk { s with pending }

/-- Marking the target leaves the graph alone, and leaving the block changes it once. -/
theorem oneChange_jumpTo (b : BlockId) (s : Lifter) : s.OneChange (after (jumpTo b s)) :=
  oneChange_schedule_bind (oneChange_terminate (.jump b)) s

/-- Two blocks are marked before the current one is left for them. -/
theorem oneChange_branchTo (v : Operand) (b b' : BlockId) (s : Lifter) :
    s.OneChange (after (branchTo v b b' s)) :=
  oneChange_schedule_bind (oneChange_schedule_bind (oneChange_terminate (.branch v b b'))) s

/-- The search for dominators fails and leaves all as it is, or ends with the graph, from which the
dead blocks are removed unless they are kept. -/
theorem findDominators_cases (s : Lifter) :
    (∃ stop, findDominators s = .error stop s) ∨
      ∃ s', findDominators s = .ok () s' ∧
        if s.options.keepDead then s'.graph = s.graph else s.graph.removeDead = .ok s'.graph := by
  unfold findDominators
  rw [get_bind, orFault_bind]
  rcases Dominators.checkedSolve s.graph with f | ⟨d, sweeps⟩
  · exact .inl ⟨_, rfl⟩
  -- what is told in between changes neither the graph nor the options
  dsimp only
  rw [orFault_bind, show (s.tellAll _).graph = s.graph from rfl,
    show (s.tellAll _).options = s.options from rfl]
  rcases d.checkedBackbone s.graph with f | backbone
  · exact .inl ⟨_, rfl⟩
  by_cases hkeep : s.options.keepDead = true
  · simp only [if_pos hkeep]
    exact .inr ⟨_, rfl, rfl⟩
  · simp only [if_neg hkeep]
    rcases hremove : s.graph.removeDead with i | graph
    · exact .inl ⟨_, rfl⟩
    · dsimp only
      rw [orFault_bind]
      rcases (s.graph.deadBlocks.foldl Dominators.forget d).checkedBackbone graph with f | backbone'
      · exact .inl ⟨_, rfl⟩
      · exact .inr ⟨_, rfl, rfl⟩

end Lift

namespace Passing

open Passage

variable {α β : Type} {i : Instruction}

/-- Whether a passage changes the graph by one operation at a time, wherever it starts. -/
def Stepwise (p : Passing α) : Prop := ∀ s, p.Gapless Lifter.OneChange s

theorem stepwise_pure (a : α) : Stepwise (pure a) := gapless_pure a

/-- A computation that changes the graph once. -/
theorem stepwise_stride {x : Lift α} (h : ∀ s : Lifter, s.OneChange (after (x s))) :
    Stepwise (stride x) := fun s => gapless_stride (h s)

/-- A computation that leaves the graph as it is. -/
theorem stepwise_still {x : Lift α} (h : ∀ s, (after (x s)).graph = s.graph) :
    Stepwise (stride x) := stepwise_stride fun s => .of_eq (h s)

/-- A computation that only reads. -/
theorem stepwise_read {x : Lift α} (h : ∀ s, after (x s) = s) : Stepwise (stride x) :=
  stepwise_still fun s => congrArg Lifter.graph (h s)

/-- A passage after another one, wherever that ends. -/
theorem Stepwise.bind {p : Passing α} {k : α → Passing β} (hp : Stepwise p)
    (hk : ∀ a, Stepwise (k a)) : Stepwise (p >>= k) :=
  fun s => (hp s).bind fun a s' _ => hk a s'

theorem stepwise_get : Stepwise (get : Passing Lifter) := stepwise_still fun _ => rfl

/-- A loop whose rounds change the graph by one operation at a time. -/
theorem stepwise_forM {l : List α} {f : α → Passing PUnit} (hf : ∀ a ∈ l, Stepwise (f a)) :
    Stepwise (forM l f) := fun _ => gapless_forM hf

/-! ### Instructions -/

/-- Popping is one operation. -/
theorem stepwise_pop : Stepwise (stride Lift.pop) := stepwise_stride (Lift.oneChange_top true)

theorem stepwise_peek : Stepwise (stride Lift.peek) := stepwise_stride (Lift.oneChange_top false)

/-- Asking for a block is one operation, whether or not it is made. -/
theorem stepwise_ensure (o : Int) : Stepwise (stride (Lift.ensure o)) :=
  stepwise_stride fun s => .perform s.graph (.ensure o)

theorem stepwise_orFault (r : Except Fault α) : Stepwise (stride (Lift.orFault r)) :=
  stepwise_read (Lift.after_orFault r)

/-- A value is made, and then it is pushed. -/
theorem stepwise_pushIn (b : BlockId) (e : Expr) : Stepwise (pushIn b e) :=
  Stepwise.bind (stepwise_stride fun s => .perform s.graph (.append b s.line (some e))) fun v =>
    stepwise_stride fun s => .perform s.graph (.call b (.push (some v)))

/-- The block in which a value is made and pushed may be the one that is walked. -/
theorem stepwise_pushNew (e : Expr) : Stepwise (pushNew e) :=
  stepwise_get.bind fun s => stepwise_pushIn s.current e

/-- Nothing is made where a table has no entry. -/
theorem stepwise_load (entry : Option α) (value : α → Expr) (e : LiftError) :
    Stepwise (load entry value e) := by
  cases entry with
  | none => exact stepwise_still fun _ => rfl
  | some a => exact stepwise_pushNew (value a)

/-- Two operands are popped and a value is emitted, one after the other. -/
theorem stepwise_binary (o : Operator) : Stepwise (binary o) :=
  stepwise_pop.bind fun _ => stepwise_pop.bind fun _ => stepwise_pushNew _

theorem stepwise_compare : Stepwise (compare i) := by
  unfold compare
  cases Lift.pick? Operator.comparisons i.arg with
  | none => exact stepwise_still fun _ => rfl
  | some o => exact stepwise_binary o

/-- Each keyword is popped in two operations. -/
theorem stepwise_popKeywords (n : Nat) (keywords : List Keyword) :
    Stepwise (popKeywords i n keywords) := by
  induction n generalizing keywords with
  | zero => exact stepwise_pure keywords
  | succ n ih =>
    exact stepwise_pop.bind fun value => stepwise_pop.bind fun key =>
      (stepwise_read (Lift.after_keywordName i key)).bind fun name => ih (⟨name, value⟩ :: keywords)

theorem stepwise_popArgs (n : Nat) (args : List Operand) : Stepwise (popArgs n args) := by
  induction n generalizing args with
  | zero => exact stepwise_pure args
  | succ n ih => exact stepwise_pop.bind fun v => ih (v :: args)

/-- The keywords, the arguments and the callee are popped, and the call is emitted. -/
theorem stepwise_call : Stepwise (call i) :=
  (stepwise_popKeywords _ []).bind fun _ => (stepwise_popArgs _ []).bind fun _ =>
    stepwise_pop.bind fun _ => stepwise_pushNew _

theorem stepwise_branchTo (v : Operand) (b b' : BlockId) :
    Stepwise (stride (Lift.branchTo v b b')) := stepwise_stride (Lift.oneChange_branchTo v b b')

/-- A header makes the check of the iterator and the next element in separate operations. -/
theorem stepwise_forLoop : Stepwise (forLoop i) := by
  refine stepwise_peek.bind fun iterator => (stepwise_ensure _).bind fun exit =>
    (stepwise_ensure _).bind fun body => stepwise_get.bind fun s =>
      (stepwise_orFault _).bind fun walked => ?_
  have hrest : Stepwise
      (do
        pushNew (.call (some (.operator .iterValid)) [iterator] [])
        let cond ← Lift.pop
        Lift.branchTo cond body exit
        pushIn body (.call (some (.operator .iterNext)) [iterator] []) : Passing Unit) :=
    (stepwise_pushNew _).bind fun _ => stepwise_pop.bind fun cond =>
      (stepwise_branchTo cond body exit).bind fun _ => stepwise_pushIn body _
  -- for a body that was walked before there is a fault first, and the rest is not come to
  cases walked with
  | true => exact Stepwise.bind (stepwise_still fun _ => rfl) fun _ => hrest
  | false => exact hrest

/-- Two blocks are asked for, and the block is left for one of them. -/
theorem stepwise_fork (o o' : Int) (v : Operand) :
    Stepwise (do
      let a ← Lift.ensure o
      let a' ← Lift.ensure o'
      Lift.branchTo v a a' : Passing Unit) :=
  (stepwise_ensure o).bind fun a => (stepwise_ensure o').bind fun a' => stepwise_branchTo v a a'

/-- A branch takes its condition and asks for its blocks before it leaves. -/
theorem stepwise_branch (pops jumpsOn : Bool) : Stepwise (branch pops jumpsOn i) := by
  cases pops <;> cases jumpsOn
  · exact stepwise_peek.bind fun v => stepwise_fork _ _ v
  · exact stepwise_peek.bind fun v => stepwise_fork _ _ v
  · exact stepwise_pop.bind fun v => stepwise_fork _ _ v
  · exact stepwise_pop.bind fun v => stepwise_fork _ _ v

theorem stepwise_jumpTo (b : BlockId) : Stepwise (stride (Lift.jumpTo b)) :=
  stepwise_stride (Lift.oneChange_jumpTo b)

/-- A return pops its value and leaves the block, in one of two ways. -/
theorem stepwise_ret : Stepwise ret := by
  refine stepwise_pop.bind fun v => stepwise_get.bind fun s => ?_
  dsimp only
  split
  · exact stepwise_stride (Lift.oneChange_terminate _)
  · exact stepwise_stride (Lift.oneChange_terminate _)

/-- Each instruction changes the graph by one operation at a time. -/
theorem stepwise_perform (e : Effect) : Stepwise (perform i e) := by
  cases e with
  | nothing => exact stepwise_pure ()
  | loadConst => exact stepwise_get.bind fun s => stepwise_load _ _ _
  | loadLocal => exact (stepwise_read (Lift.after_localName i)).bind fun _ => stepwise_pushNew _
  | loadGlobal => exact stepwise_get.bind fun s => stepwise_load _ _ _
  | storeLocal =>
    exact (stepwise_read (Lift.after_localName i)).bind fun _ =>
      stepwise_pop.bind fun _ => stepwise_pushNew _
  | unary o => exact stepwise_pop.bind fun _ => stepwise_pushNew _
  | binary o => exact stepwise_binary o
  | compare => exact stepwise_compare
  | call => exact stepwise_call
  | forLoop => exact stepwise_forLoop
  | branch pops jumpsOn => exact stepwise_branch pops jumpsOn
  | jump => exact (stepwise_ensure _).bind fun target => stepwise_jumpTo target
  | ret => exact stepwise_ret

theorem stepwise_tell (e : Trace.Event) : Stepwise (stride (Lift.tell e)) :=
  stepwise_still fun _ => rfl

/-- What comes before the effect of an instruction leaves the graph alone. -/
theorem stepwise_step (i : Instruction) : Stepwise (step i) := by
  refine Stepwise.bind (stepwise_still fun _ => rfl) fun _ => stepwise_get.bind fun s =>
    (stepwise_tell _).bind fun _ => ?_
  cases i.op.effect? with
  | none => exact stepwise_still fun _ => rfl
  | some e => exact stepwise_perform e

/-! ### Walking -/

/-- The arguments are emitted one by one. -/
theorem stepwise_pushArguments : Stepwise pushArguments :=
  stepwise_get.bind fun _ => Stepwise.bind (stepwise_still fun _ => rfl) fun _ =>
    stepwise_forM fun _ _ => stepwise_pushNew _

/-- A walk is a sequence of steps, at the end of which a block may be jumped to. -/
theorem stepwise_walkFrom (find : Int → Option Instruction) (offset : Int) (fuel : Nat) :
    Stepwise (walkFrom find offset fuel) := by
  induction fuel generalizing offset with
  | zero => exact stepwise_still fun _ => rfl
  | succ fuel ih =>
    unfold walkFrom
    cases find offset with
    | none => exact stepwise_get.bind fun _ => stepwise_still fun _ => rfl
    | some i =>
      refine (stepwise_step i).bind fun _ => stepwise_get.bind fun s => ?_
      split
      · exact stepwise_pure ()
      · cases s.graph.find? i.next with
        | none => exact ih i.next
        | some b => exact stepwise_jumpTo b

/-- A walk asks for its block first. -/
theorem stepwise_walk (find : Int → Option Instruction) (offset : Int) :
    Stepwise (walk find offset) := by
  refine (stepwise_ensure offset).bind fun b =>
    Stepwise.bind (stepwise_still fun _ => rfl) fun _ => (stepwise_tell _).bind fun _ => ?_
  have hwalk : Stepwise (walkOn find offset b) :=
    stepwise_get.bind fun _ => (stepwise_walkFrom find offset _).bind fun _ =>
      stepwise_get.bind fun _ => stepwise_tell _
  dsimp only
  split
  · exact stepwise_pushArguments.bind fun _ => hwalk
  · exact hwalk

/-- Walking blocks until none is left to be walked. -/
theorem stepwise_traverse (find : Int → Option Instruction) (fuel : Nat) :
    Stepwise (traverse find fuel) := by
  induction fuel with
  | zero => exact stepwise_still fun _ => rfl
  | succ fuel ih =>
    intro s
    refine (stepwise_get s).bind fun _ s₁ hget => ?_
    cases hget
    cases s.pending.first? with
    | none => exact gapless_pure () s
    | some offset =>
      -- the state that is set is the one that was looked at, so its graph has to be kept in mind
      refine (stepwise_orFault _ s).bind fun pending s₁ herase => ?_
      obtain ⟨-, rfl⟩ := Lift.orFault_ok herase
      refine Gapless.bind (gapless_stride (.nothing s₁.graph)) fun _ s₂ _ => ?_
      refine ((stepwise_orFault _).bind fun walked => ?_) s₂
      cases walked with
      | true => exact ih
      | false =>
        have hrest := fun _ : Unit => (stepwise_walk find offset).bind fun _ => ih
        cases s₁.processed.insert offset with
        | ok u processed => exact Stepwise.bind (stepwise_still fun _ => rfl) hrest
        | error f _ => exact Stepwise.bind (stepwise_still fun _ => rfl) hrest

end Passing

/-! ### Passes -/

namespace PhiCompletion

open Passage

/-- Whether the graph was changed once at most. -/
def State.OneChange (s s' : State) : Prop := s.graph.OneChange s'.graph

/-- The predecessor is asked for the value, and then the phi gets it. -/
theorem gapless_feedPassing (v : ValueId) (slot : Int) (b : BlockId) (s : State) :
    Gapless State.OneChange (feedPassing v slot b) s := by
  unfold feedPassing feed Graph.exitSlotAt
  by_cases hneg : slot < 0
  · simp only [if_pos hneg]
    exact gapless_via (.nil s) (.nothing s.graph)
  · simp only [if_neg hneg]
    refine gapless_via (.single (.perform s.graph (.call b (.exitSlot (s.graph.lineOf b) _)))) ?_
    -- a value that is there already is a fault, but the predecessor has been asked by then
    dsimp only
    split
    · exact .nothing _
    · exact .putIncoming _ v b _

/-- A phi gets its values one by one, and is marked as complete after the last one. -/
theorem gapless_completePassing (maxDepth : Int) (v : ValueId) (p : Phi) (s : State) :
    Gapless State.OneChange (completePassing maxDepth v p) s := by
  refine (gapless_stride (.nothing s.graph)).bind fun _ s₁ hget => ?_
  cases hget
  dsimp only
  split
  · exact (gapless_stride (.nothing s.graph)).bind fun _ _ hstop => by cases hstop
  split
  · exact (gapless_stride (.nothing s.graph)).bind fun _ _ hstop => by cases hstop
  refine Gapless.bind (gapless_forM fun b _ => gapless_feedPassing v p.slot b) fun _ s' _ =>
    gapless_stride (.markComplete s'.graph v)

/-- The phis of the queue are completed one after the other. -/
theorem gapless_drainPassing (maxDepth : Int) (fuel : Nat) (s : State) :
    Gapless State.OneChange (drainPassing maxDepth fuel) s := by
  induction fuel generalizing s with
  | zero => exact gapless_stride (.nothing s.graph)
  | succ fuel ih =>
    refine (gapless_stride (.nothing s.graph)).bind fun _ s₁ hget => ?_
    cases hget
    cases s.queue.next? with
    | none => exact gapless_pure () s
    | some first =>
      refine Gapless.bind (gapless_stride (.nothing s.graph)) fun _ s₁ hset => ?_
      cases hset
      refine Gapless.bind ?_ fun _ s' _ => ih s'
      cases (s.graph.definition first.1).phi? with
      | none => exact gapless_stride (.nothing s.graph)
      | some p =>
        dsimp only [Option.elim_some]
        split
        · exact gapless_pure () _
        · exact gapless_completePassing maxDepth first.1 p _

end PhiCompletion

namespace Passing

open Passage

/-- The search for dominators removes dead blocks one by one, or leaves the graph alone. -/
theorem stepwise_findDominators : Stepwise findDominators := by
  intro s
  unfold findDominators
  rcases Lift.findDominators_cases s with ⟨stop, heq⟩ | ⟨s', heq, hgraph⟩
  · refine gapless_via (?_ : Leads _ s _ s) ?_
    · simp only [heq]
      exact .nil s
    · rw [heq]
      exact .nothing s.graph
  · by_cases hkeep : s.options.keepDead = true
    · rw [if_pos hkeep] at hgraph
      refine gapless_via (?_ : Leads _ s _ s) ?_
      · simp only [heq, if_pos hkeep]
        exact .nil s
      · rw [heq]
        exact .of_eq hgraph
    · -- the last removal gives the graph of the end, with which the dominators are set
      rw [if_neg hkeep] at hgraph
      refine gapless_via (?_ : Leads _ s _ { s with graph := s'.graph }) ?_
      · have hkept : ∀ g g' : Graph, g.OneChange g' →
            Lifter.OneChange { s with graph := g } { s with graph := g' } := fun _ _ h => h
        simp only [heq, if_neg hkeep]
        exact (Graph.leads_discards hgraph).map _ hkept
      · rw [heq]
        exact .nothing s'.graph

/-- What the completion shows of its own state is shown of that of the lifter. -/
theorem stepwise_completePhis : Stepwise completePhis := by
  intro s
  have hdrain := PhiCompletion.gapless_drainPassing (Lift.depthLimit s.code)
    (PhiCompletion.fuelFor s.graph (Lift.depthLimit s.code))
    ⟨s.graph, { front := PhiCompletion.allPhis s.graph }, #[]⟩
  have hkept : ∀ r r' : PhiCompletion.State, r.OneChange r' →
      Lifter.OneChange { s with graph := r.graph, events := s.events ++ r.events }
        { s with graph := r'.graph, events := s.events ++ r'.events } := fun _ _ h => h
  have hshown := hdrain.map _ hkept
  rw [Array.append_empty] at hshown
  refine gapless_via hshown (.of_eq ?_)
  rw [Lift.graph_after_completePhis, PhiCompletion.result_drainPassing]
  rfl

/-- A lift, up to where it stops. -/
theorem stepwise_all : Stepwise all := by
  intro s
  refine (stepwise_get s).bind fun _ s₁ hget => ?_
  cases hget
  dsimp only
  split
  · exact (gapless_stride (.nothing s.graph)).bind fun _ _ hstop => by cases hstop
  refine (gapless_stride (.nothing s.graph)).bind fun _ s₁ _ => ?_
  exact ((stepwise_read (Lift.after_checkSignature _)).bind fun _ =>
    (stepwise_traverse _ _).bind fun _ => stepwise_findDominators.bind fun _ =>
      stepwise_completePhis.bind fun _ => stepwise_still Lift.graph_after_finish) s₁

end Passing

namespace Lifter

/-- A lift ends with the graph that it has made. -/
theorem graph_after_close (message : LiftError → String)
    (r : EStateM.Result (Stop LiftError) Lifter Unit) :
    (after (close message r)).graph = (after r).graph := by
  cases r <;> rfl

/-- The states of a whole lift, of which each but for the first one comes out of the one before it
by one change to the graph at most. -/
theorem gapless_passage (s : Lifter) : Passage.Gapless OneChange passage s := by
  refine .cons (.nothing s.graph) (.cons (.nothing s.graph) ?_)
  refine (Passing.stepwise_all s.opening).append (.single (.of_eq ?_))
  exact graph_after_close _ _

end Lifter

end StackLift
