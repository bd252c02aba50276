/-
# The stack of a block never runs out

A block's own stack holds what was pushed and not popped.  Below it come the entry slots that were
not popped, whose phis are made only when one is asked for.  So a block answers like a stack that
holds all entry values from the beginning, however its calls are mixed with other work on the
graph, and every entry value has one phi.

* `Endless` : stacks that never run out, with the answers they give;
* `Graph.Operation` : what can be done to a graph, calls on the stack of a block among it;
* `Block.endless` : the endless stack that a block stands for;
* `Graph.answer_matches` : what one call does to it;
* `Graph.Built.answers_eq_endless` : a new block answers like a stack of all entry values.
-/
import Mathlib.Data.Stream.Init
import StackLift.Proofs.Construction

namespace StackLift

/-! ## Endless stacks -/

/-- An element of an endless stack: a value that was pushed, or the entry value `k` below the top of
the stack as it was in the beginning. -/
inductive Element
  | pushed (v : Operand)
  | entry (k : Nat)
  deriving DecidableEq, Repr

/-- Whether an element has been there from the beginning. -/
def Element.isEntry : Element → Bool
  | .pushed _ => false
  | .entry _ => true

/-- The value of an element, given the values for the entry values. -/
def Element.operand (phi : Nat → ValueId) : Element → Operand
  | .pushed v => v
  | .entry k => some (phi k)

/-- A call on a stack, with the source line on which it is made. -/
inductive StackCall
  | push (v : Operand)
  | pop (line : Int)
  | peek (line : Int)
  /-- Asks for the entry value at a depth. -/
  | entrySlot (line : Int) (depth : Nat)
  /-- Asks for the element at a depth, and whether it passes through. -/
  | exitSlot (line : Int) (depth : Nat)
  deriving DecidableEq, Repr

/-- The answer to a call. -/
inductive Answer (α : Type)
  | nothing
  | value (a : α)
  | exit (a : α) (through : Bool)
  deriving DecidableEq, Repr

namespace Answer

/-- An answer in other terms. -/
def map {α β : Type} (f : α → β) : Answer α → Answer β
  | .nothing => .nothing
  | .value a => .value (f a)
  | .exit a through => .exit (f a) through

/-- What an answer is about, if it is about something. -/
def subject? {α : Type} : Answer α → Option α
  | .nothing => none
  | .value a => some a
  | .exit a _ => some a

end Answer

/-- A stack that never runs out, the top first. -/
abbrev Endless := Stream' Element

namespace Endless

/-- The stack with which nothing was done: all entry values. -/
def supply : Endless := Stream'.nats.map .entry

/-- The answer to a call, and the stack after it. -/
def answer (r : Endless) : StackCall → Answer Element × Endless
  | .push v => (.nothing, Stream'.cons (.pushed v) r)
  | .pop _ => (.value r.head, r.tail)
  | .peek _ => (.value r.head, r)
  | .entrySlot _ depth => (.value (.entry depth), r)
  | .exitSlot _ depth => (.exit (r.get depth) (r.get depth).isEntry, r)

/-- The answers to calls one after the other. -/
def answers (r : Endless) : List StackCall → List (Answer Element)
  | [] => []
  | c :: cs => (r.answer c).1 :: answers (r.answer c).2 cs

end Endless

/-! ## Operations on a graph -/

namespace Graph

/-- What can be done to a graph. -/
inductive Operation
  | ensure (offset : Int)
  | remove (b : BlockId)
  | append (b : BlockId) (line : Int) (e : Option Expr)
  | connect (b next : BlockId)
  | terminate (b : BlockId) (line : Int) (t : Terminator)
  | call (b : BlockId) (c : StackCall)
  deriving DecidableEq, Repr

/-- The answer of a block to a call on its stack, and the graph after it. -/
def answer (g : Graph) (b : BlockId) : StackCall → Answer Operand × Graph
  | .push v => (.nothing, g.push b v)
  | .pop line => (.value (g.pop b line).1, (g.pop b line).2)
  | .peek line => (.value (g.peek b line).1, (g.peek b line).2)
  | .entrySlot line depth =>
    (.value (some (g.entrySlot b line depth).1), (g.entrySlot b line depth).2)
  | .exitSlot line depth =>
    (.exit (g.exitSlot b line depth).1.1 (g.exitSlot b line depth).1.2,
      (g.exitSlot b line depth).2)

/-- The graph after an operation; one that is refused changes nothing. -/
def perform (g : Graph) : Operation → Graph
  | .ensure offset => (g.ensure offset).2
  | .remove b => (g.remove b).toOption.getD g
  | .append b line e => (g.define b line e).2
  | .connect b next => g.connect b next
  | .terminate b line t => (g.terminate b line t).toOption.getD g
  | .call b c => (g.answer b c).2

/-- The call that an operation is, if it is one on the stack of a block. -/
def Operation.callOn? (b : BlockId) : Operation → Option StackCall
  | .call a c => if a = b then some c else none
  | _ => none

/-- The calls on the stack of a block among operations. -/
def callsOn (b : BlockId) (ops : List Operation) : List StackCall := ops.filterMap (·.callOn? b)

/-- The answers of a block to the calls on its stack among operations. -/
def answers (g : Graph) (b : BlockId) : List Operation → List (Answer Operand)
  | [] => []
  | op :: ops =>
    ((op.callOn? b).map fun c => (g.answer b c).1).toList ++ (g.perform op).answers b ops

end Graph

/-! ## The endless stack of a block -/

namespace Block

variable {x y : Block}

/-- The endless stack that a block stands for: its own stack, and below it the entry slots that were
not popped. -/
def endless (x : Block) : Endless := x.stack.map .pushed ++ₛ Endless.supply.drop x.used

/-- Whether an operand stands for an element: an entry value has the phi of its slot. -/
def Shows (x : Block) (v : Operand) : Element → Prop
  | .pushed u => v = u
  | .entry k => ∃ u, v = some u ∧ x.phis[k]? = some u

/-- Whether an answer of a block stands for an answer of an endless stack. -/
inductive Matches (x : Block) : Answer Operand → Answer Element → Prop
  | nothing : Matches x .nothing .nothing
  | value {v : Operand} {e : Element} (h : x.Shows v e) : Matches x (.value v) (.value e)
  | exit {v : Operand} {e : Element} (through : Bool) (h : x.Shows v e) :
      Matches x (.exit v through) (.exit e through)

theorem Shows.mono {v : Operand} {e : Element} (h : x.Shows v e)
    (hphis : ∀ (k : Nat) u, x.phis[k]? = some u → y.phis[k]? = some u) : y.Shows v e := by
  cases e with
  | pushed u => exact h
  | entry k =>
    obtain ⟨u, hv, hu⟩ := h
    exact ⟨u, hv, hphis k u hu⟩

theorem Matches.mono {a : Answer Operand} {r : Answer Element} (h : x.Matches a r)
    (hphis : ∀ (k : Nat) u, x.phis[k]? = some u → y.phis[k]? = some u) : y.Matches a r := by
  cases h with
  | nothing => exact .nothing
  | value h => exact .value (h.mono hphis)
  | exit through h => exact .exit through (h.mono hphis)

/-- Only its own stack and the number of slots popped make the endless stack of a block. -/
theorem endless_congr (hstack : y.stack = x.stack) (hused : y.used = x.used) :
    y.endless = x.endless := by
  rw [endless, hstack, hused, endless]

theorem endless_of_cons {v : Operand} {rest : List Operand} (h : x.stack = v :: rest) :
    x.endless = Stream'.cons (.pushed v) { x with stack := rest }.endless := by
  rw [endless, h, List.map_cons, Stream'.cons_append_stream]
  rfl

theorem endless_of_nil (h : x.stack = []) : x.endless = Endless.supply.drop x.used := by
  rw [endless, h, List.map_nil, Stream'.nil_append_stream]

/-- Without its top, a block stands for the rest of the endless stack. -/
theorem endless_dropTop (x : Block) : (Graph.dropTop x).endless = x.endless.tail := by
  cases h : x.stack with
  | nil =>
    have hnil : ({ x with used := x.used + 1 } : Block).stack = [] := h
    rw [Graph.dropTop_of_nil h, endless_of_nil h, endless_of_nil hnil, Stream'.tail_drop']
  | cons v rest =>
    rw [Graph.dropTop_of_cons h, endless_of_cons h, Stream'.tail_cons]

theorem get_endless_of_lt {d : Nat} (h : d < x.stack.length) :
    x.endless.get d = .pushed x.stack[d] := by
  rw [endless, Stream'.get_append_left _ _ _ (by simpa using h), List.getElem_map]

/-- Below its own stack, a block stands for entry values. -/
theorem get_endless_of_ge {d : Nat} (h : x.stack.length ≤ d) :
    x.endless.get d = .entry (x.used + d - x.stack.length) := by
  obtain ⟨m, rfl⟩ := Nat.exists_eq_add_of_le h
  have hget := Stream'.get_append_right m (x.stack.map .pushed) (Endless.supply.drop x.used)
  rw [List.length_map] at hget
  rw [endless, hget, show x.used + (x.stack.length + m) - x.stack.length = m + x.used by omega]
  rfl

end Block

namespace Graph

variable {g g' : Graph} {a b : BlockId}

/-! ## Calls -/

/-- Asking for an entry slot gets its phi and changes nothing else of the block. -/
theorem entrySlot_shows (hb : b < g.blocks.size) (line : Int) (depth : Nat) :
    ((g.entrySlot b line depth).2.block b).endless = (g.block b).endless ∧
      ((g.entrySlot b line depth).2.block b).Shows (some (g.entrySlot b line depth).1)
        (.entry depth) := by
  obtain ⟨new, -, hblock⟩ := block_reach_self hb line depth
  refine ⟨?_, _, rfl, getElem?_entrySlot hb line depth⟩
  change ((g.reach b line depth).block b).endless = _
  rw [hblock]
  exact Block.endless_congr rfl rfl

/-- Looking at the top shows the top of the endless stack. -/
theorem peek_shows (hb : b < g.blocks.size) (line : Int) :
    ((g.peek b line).2.block b).endless = (g.block b).endless ∧
      ((g.peek b line).2.block b).Shows (g.peek b line).1 (g.block b).endless.head := by
  rcases peek_cases hb line with ⟨v, rest, hstack, hv, hblock⟩ |
    ⟨new, v, hstack, -, hv, hslot, hblock⟩
  · rw [hblock, hv, Block.endless_of_cons hstack]
    exact ⟨rfl, rfl⟩
  · rw [hblock, hv]
    refine ⟨Block.endless_congr rfl rfl, ?_⟩
    have htop : (g.block b).endless.head = .entry (g.block b).used := by
      rw [Stream'.head, Block.get_endless_of_ge (by simp [hstack]), hstack]
      rfl
    rw [htop]
    exact ⟨v, rfl, hslot⟩

/-- A pop shows the top of the endless stack and takes it away. -/
theorem pop_shows (hb : b < g.blocks.size) (line : Int) :
    ((g.pop b line).2.block b).endless = (g.block b).endless.tail ∧
      ((g.pop b line).2.block b).Shows (g.pop b line).1 (g.block b).endless.head := by
  obtain ⟨hsame, hshows⟩ := peek_shows hb line
  have hlt : b < (g.peek b line).2.blocks.size := (g.worksIn_peek b line).size_eq ▸ hb
  rw [pop_eq, block_modifyBlock_self hlt, Block.endless_dropTop, hsame]
  exact ⟨rfl, hshows.mono fun k u hu => by rwa [phis_dropTop]⟩

/-- The slot with which a block is left shows the element at its depth, which passes through if it
is an entry value. -/
theorem exitSlot_shows (hb : b < g.blocks.size) (line : Int) (depth : Nat) :
    ((g.exitSlot b line depth).2.block b).endless = (g.block b).endless ∧
      ((g.exitSlot b line depth).2.block b).Shows (g.exitSlot b line depth).1.1
        ((g.block b).endless.get depth) ∧
      (g.exitSlot b line depth).1.2 = ((g.block b).endless.get depth).isEntry := by
  rcases Nat.lt_or_ge depth (g.block b).stack.length with hlt | hge
  · rw [exitSlot_of_lt hlt, Block.get_endless_of_lt hlt]
    exact ⟨rfl, rfl, rfl⟩
  · rw [exitSlot_of_ge hge, Block.get_endless_of_ge hge]
    obtain ⟨hsame, hshows⟩ := entrySlot_shows hb line
      ((g.block b).used + depth - (g.block b).stack.length)
    exact ⟨hsame, hshows, rfl⟩

/-- A call does to the endless stack of a block what it does to any, and is answered so. -/
theorem answer_matches (hb : b < g.blocks.size) (c : StackCall) :
    ((g.answer b c).2.block b).endless = ((g.block b).endless.answer c).2 ∧
      ((g.answer b c).2.block b).Matches (g.answer b c).1 ((g.block b).endless.answer c).1 := by
  cases c with
  | push v =>
    have hblock : (g.push b v).block b = { g.block b with stack := v :: (g.block b).stack } :=
      block_modifyBlock_self hb _
    refine ⟨?_, .nothing⟩
    change ((g.push b v).block b).endless = _
    rw [hblock, Block.endless_of_cons rfl]
    rfl
  | pop line =>
    obtain ⟨hrest, hshows⟩ := pop_shows hb line
    exact ⟨hrest, .value hshows⟩
  | peek line =>
    obtain ⟨hsame, hshows⟩ := peek_shows hb line
    exact ⟨hsame, .value hshows⟩
  | entrySlot line depth =>
    obtain ⟨hsame, hshows⟩ := entrySlot_shows hb line depth
    exact ⟨hsame, .value hshows⟩
  | exitSlot line depth =>
    obtain ⟨hsame, hshows, hthrough⟩ := exitSlot_shows hb line depth
    refine ⟨hsame, ?_⟩
    change Block.Matches _ (.exit _ (g.exitSlot b line depth).1.2) _
    rw [hthrough]
    exact .exit _ hshows

/-- A call is work in its block. -/
theorem worksIn_answer (g : Graph) (b : BlockId) (c : StackCall) :
    WorksIn b g (g.answer b c).2 := by
  cases c with
  | push v => exact g.worksIn_push b v
  | pop line => exact g.worksIn_pop b line
  | peek line => exact g.worksIn_peek b line
  | entrySlot line depth => exact g.worksIn_reach b line depth
  | exitSlot line depth => exact g.worksIn_exitSlot b line depth

/-! ## Other operations -/

/-- Whether a graph came out of another one without a change to the stack and the phis of a
block. -/
structure Leaves (b : BlockId) (g g' : Graph) : Prop where
  size_le : g.blocks.size ≤ g'.blocks.size
  stack_eq : (g'.block b).stack = (g.block b).stack
  used_eq : (g'.block b).used = (g.block b).used
  phis_eq : (g'.block b).phis = (g.block b).phis

namespace Leaves

theorem refl (b : BlockId) (g : Graph) : Leaves b g g := ⟨Nat.le_refl _, rfl, rfl, rfl⟩

theorem trans {g'' : Graph} (h : Leaves b g g') (h' : Leaves b g' g'') : Leaves b g g'' :=
  ⟨Nat.le_trans h.size_le h'.size_le, h'.stack_eq.trans h.stack_eq, h'.used_eq.trans h.used_eq,
    h'.phis_eq.trans h.phis_eq⟩

/-- Work in another block leaves a block alone. -/
theorem of_worksIn (h : WorksIn a g g') (hab : b ≠ a) : Leaves b g g' := by
  have hblock := h.others b hab
  exact ⟨Nat.le_of_eq h.size_eq.symm, by rw [hblock], by rw [hblock], by rw [hblock]⟩

theorem modifyBlock {f : Block → Block} (hstack : ∀ x, (f x).stack = x.stack)
    (hused : ∀ x, (f x).used = x.used) (hphis : ∀ x, (f x).phis = x.phis) :
    Leaves b g (g.modifyBlock a f) := by
  refine ⟨Nat.le_of_eq (size_modifyBlock ..).symm, ?_, ?_, ?_⟩
  all_goals
    rw [block_modifyBlock]
    split
  · exact hstack _
  · rfl
  · exact hused _
  · rfl
  · exact hphis _
  · rfl

theorem addBlock (hb : b < g.blocks.size) (o : Int) : Leaves b g (g.addBlock o) := by
  have hblock : (g.addBlock o).block b = g.block b := by
    rw [block_addBlock, if_neg (Nat.ne_of_lt hb)]
  refine ⟨?_, by rw [hblock], by rw [hblock], by rw [hblock]⟩
  rw [size_addBlock]
  exact Nat.le_succ _

theorem connect (a n : BlockId) : Leaves b g (g.connect a n) := by
  refine trans (modifyBlock ?_ ?_ ?_) (modifyBlock ?_ ?_ ?_)
  all_goals exact fun _ => rfl

theorem foldl_connect (a : BlockId) (ts : List BlockId) :
    Leaves b g (ts.foldl (fun g n => g.connect a n) g) := by
  induction ts generalizing g with
  | nil => exact .refl b g
  | cons n ts ih => exact (connect a n).trans ih

theorem terminate {line : Int} {t : Terminator} (hok : g.terminate a line t = .ok g') :
    Leaves b g g' := by
  unfold Graph.terminate at hok
  split at hok
  · cases hok
  · cases hok
    refine trans (modifyBlock ?_ ?_ ?_) (foldl_connect a _)
    all_goals exact fun _ => rfl

end Leaves

/-- An operation that is no call on the stack of a block leaves its stack and its phis alone. -/
theorem leaves_perform (hb : b < g.blocks.size) {op : Operation} (hop : op.callOn? b = none) :
    Leaves b g (g.perform op) := by
  cases op with
  | ensure o =>
    change Leaves b g (g.ensure o).2
    unfold Graph.ensure
    split
    · exact .refl b g
    · exact .addBlock hb o
  | remove a =>
    change Leaves b g ((g.remove a).toOption.getD g)
    cases hok : g.remove a with
    | ok g' =>
      rw [remove_eq_ok hok]
      exact ⟨Nat.le_refl _, rfl, rfl, rfl⟩
    | error i => exact .refl b g
  | append a line e =>
    exact (⟨Nat.le_refl _, rfl, rfl, rfl⟩ : Leaves b g (g.addDefinition a line e)).trans
      (.modifyBlock (fun _ => rfl) (fun _ => rfl) fun _ => rfl)
  | connect a n => exact .connect a n
  | terminate a line t =>
    change Leaves b g ((g.terminate a line t).toOption.getD g)
    cases hok : g.terminate a line t with
    | ok g' => exact .terminate hok
    | error i => exact .refl b g
  | call a c =>
    have hab : a ≠ b := by
      rintro rfl
      simp [Operation.callOn?] at hop
    exact .of_worksIn (g.worksIn_answer a c) hab.symm

/-- An operation that is a call on the stack of a block is one with that call. -/
theorem Operation.eq_call {op : Operation} {c : StackCall} (h : op.callOn? b = some c) :
    op = .call b c := by
  cases op with
  | call a d =>
    simp only [callOn?, Option.ite_none_right_eq_some, Option.some.injEq] at h
    rw [h.1, h.2]
  | _ => cases h

theorem lt_size_perform (hb : b < g.blocks.size) (op : Operation) :
    b < (g.perform op).blocks.size := by
  cases hop : op.callOn? b with
  | none => exact Nat.lt_of_lt_of_le hb (leaves_perform hb hop).size_le
  | some c =>
    rw [Operation.eq_call hop]
    exact (g.worksIn_answer b c).size_eq ▸ hb

/-- Operations keep the phis of a block. -/
theorem phis_perform (hb : b < g.blocks.size) (op : Operation) {k : Nat} {v : ValueId}
    (hv : (g.block b).phis[k]? = some v) : ((g.perform op).block b).phis[k]? = some v := by
  cases hop : op.callOn? b with
  | none => rwa [(leaves_perform hb hop).phis_eq]
  | some c =>
    rw [Operation.eq_call hop]
    exact (g.worksIn_answer b c).phis_mono k v hv

theorem phis_foldl_perform (hb : b < g.blocks.size) (ops : List Operation) {k : Nat} {v : ValueId}
    (hv : (g.block b).phis[k]? = some v) : ((ops.foldl perform g).block b).phis[k]? = some v := by
  induction ops generalizing g with
  | nil => exact hv
  | cons op ops ih => exact ih (lt_size_perform hb op) (phis_perform hb op hv)

theorem Slotted.answer (h : g.Slotted) (b : BlockId) (c : StackCall) :
    (g.answer b c).2.Slotted := by
  cases c with
  | push v => exact h.modifyBlock rfl
  | pop line => exact h.pop b line
  | peek line => exact h.peek b line
  | entrySlot line depth => exact h.addSlots b line _
  | exitSlot line depth => exact h.exitSlot b line depth

/-- An operation leaves phis in their slots. -/
theorem Slotted.perform (h : g.Slotted) (op : Operation) : (g.perform op).Slotted := by
  cases op with
  | ensure o => exact h.ensure o
  | remove a =>
    change ((g.remove a).toOption.getD g).Slotted
    cases hok : g.remove a with
    | ok g' =>
      rw [remove_eq_ok hok]
      exact h
    | error i => exact h
  | append a line e => exact h.define a line e
  | connect a n => exact h.foldl_connect a [n]
  | terminate a line t =>
    change ((g.terminate a line t).toOption.getD g).Slotted
    cases hok : g.terminate a line t with
    | ok g' => exact h.terminate hok
    | error i => exact h
  | call a c => exact h.answer a c

theorem Slotted.foldl_perform (h : g.Slotted) (ops : List Operation) :
    (ops.foldl Graph.perform g).Slotted := by
  induction ops generalizing g with
  | nil => exact h
  | cons op ops ih => exact ih (h.perform op)

/-! ## All answers -/

/-- In the course of operations, a block answers like the endless stack that it stands for.  The
phis for entry values are those that the block has in the end. -/
theorem answers_match (hb : b < g.blocks.size) (ops : List Operation) :
    List.Forall₂ ((ops.foldl perform g).block b).Matches (g.answers b ops)
      ((g.block b).endless.answers (callsOn b ops)) := by
  induction ops generalizing g with
  | nil => exact .nil
  | cons op ops ih =>
    have hrest := ih (lt_size_perform hb op)
    rw [answers]
    cases hop : op.callOn? b with
    | none =>
      have hleaves := leaves_perform hb hop
      rw [callsOn, List.filterMap_cons_none hop]
      rwa [Block.endless_congr hleaves.stack_eq hleaves.used_eq] at hrest
    | some c =>
      obtain ⟨hendless, hmatches⟩ := answer_matches hb c
      rw [callsOn, List.filterMap_cons_some hop]
      cases Operation.eq_call hop
      rw [show (g.perform (.call b c)) = (g.answer b c).2 from rfl] at hrest ⊢
      rw [hendless] at hrest
      refine .cons (hmatches.mono fun k u hu => ?_) hrest
      exact phis_foldl_perform ((g.worksIn_answer b c).size_eq ▸ hb) ops hu

/-- Whether a value is the phi of a slot of a block. -/
def IsSlot (g : Graph) (b : BlockId) (k : Nat) (v : ValueId) : Prop :=
  (g.block b).phis[k]? = some v ∧ (g.definition v).block = b ∧
    ∃ p, (g.definition v).phi? = some p ∧ p.slot = k

/-- A value for each entry value of a block: its phi if there is one, and a number that no value has
otherwise. -/
def phiOf (g : Graph) (b : BlockId) (k : Nat) : Nat :=
  (g.block b).phis[k]?.getD (g.definitions.size + k)

theorem phiOf_of_getElem? {k : Nat} {v : ValueId} (h : (g.block b).phis[k]? = some v) :
    g.phiOf b k = v := by
  rw [phiOf, h, Option.getD_some]

/-- The phi of an entry value is a value of the graph, and what stands for one without a phi is
none. -/
theorem Slotted.phiOf_cases (h : g.Slotted) (b : BlockId) (k : Nat) :
    (g.phiOf b k < g.definitions.size ∧
      ∃ p, (g.definition (g.phiOf b k)).phi? = some p ∧ p.slot = k) ∨
    g.phiOf b k = g.definitions.size + k := by
  unfold phiOf
  cases hk : (g.block b).phis[k]? with
  | none => exact .inr rfl
  | some v =>
    obtain ⟨hlt, -, hphi⟩ := h b k v hk
    exact .inl ⟨hlt, hphi⟩

/-- Entry values are told apart by what stands for them. -/
theorem Slotted.phiOf_injective (h : g.Slotted) (b : BlockId) : Function.Injective (g.phiOf b) := by
  intro k l hkl
  rcases h.phiOf_cases b k with ⟨hk, p, hp, hslot⟩ | hk <;>
    rcases h.phiOf_cases b l with ⟨hl, q, hq, hslot'⟩ | hl
  · -- both are phis, and a phi has one slot
    rw [hkl, hq] at hp
    cases hp
    omega
  · omega
  · omega
  · omega

/-- An answer of a block is that of an endless stack, the entry values being phis of their slots. -/
theorem Slotted.eq_of_matches (h : g.Slotted) {a : Answer Operand} {r : Answer Element}
    (hmatches : (g.block b).Matches a r) : a = r.map (·.operand (g.phiOf b)) ∧
      ∀ k, r.subject? = some (.entry k) → g.IsSlot b k (g.phiOf b k) := by
  have key : ∀ {v : Operand} {e : Element}, (g.block b).Shows v e →
      v = e.operand (g.phiOf b) ∧ ∀ k, e = .entry k → g.IsSlot b k (g.phiOf b k) := by
    intro v e hshows
    cases e with
    | pushed u => exact ⟨hshows, by rintro k ⟨⟩⟩
    | entry k =>
      obtain ⟨u, rfl, hu⟩ := hshows
      rw [Element.operand, phiOf_of_getElem? hu]
      refine ⟨rfl, ?_⟩
      rintro _ ⟨⟩
      rw [phiOf_of_getElem? hu]
      exact ⟨hu, (h b k u hu).2⟩
  cases hmatches with
  | nothing => exact ⟨rfl, by rintro k ⟨⟩⟩
  | value hshows =>
    obtain ⟨rfl, hslots⟩ := key hshows
    exact ⟨rfl, fun k hk => hslots k (Option.some.inj hk)⟩
  | exit through hshows =>
    obtain ⟨rfl, hslots⟩ := key hshows
    exact ⟨rfl, fun k hk => hslots k (Option.some.inj hk)⟩

/-- A new block stands for the stack of all entry values. -/
theorem endless_ensure {o : Int} (ho : g.find? o = none) :
    ((g.ensure o).2.block (g.ensure o).1).endless = Endless.supply := by
  rw [Graph.ensure, ho]
  change ((g.addBlock o).block g.blocks.size).endless = _
  rw [block_addBlock, if_pos rfl, Block.endless_of_nil rfl]
  rfl

/-- A new block answers all calls on its stack, however they are mixed with other operations, like
a stack that holds all entry values from the beginning.  Each entry value has a value of its own,
and if it was ever answered that is the phi of its slot. -/
theorem Built.answers_eq_endless (h : g.Built) {o : Int} (ho : g.find? o = none)
    (hnew : g.ensure o = (b, g')) (ops : List Operation) :
    ∃ phi : Nat → ValueId, Function.Injective phi ∧
      g'.answers b ops = (Endless.supply.answers (callsOn b ops)).map (·.map (·.operand phi)) ∧
      ∀ r ∈ Endless.supply.answers (callsOn b ops), ∀ k, r.subject? = some (.entry k) →
        (ops.foldl perform g').IsSlot b k (phi k) := by
  have hendless : (g'.block b).endless = Endless.supply := by
    have := endless_ensure ho
    rwa [hnew] at this
  have hb : b < g'.blocks.size := by
    rw [Graph.ensure, ho] at hnew
    cases hnew
    simp
  have hslotted : (ops.foldl perform g').Slotted := by
    have := h.regular.slotted.ensure o
    rw [hnew] at this
    exact this.foldl_perform ops
  have hmatch := answers_match hb ops
  rw [hendless] at hmatch
  have hall := (List.forall₂_and_left _ _).1 <| hmatch.flip.imp fun r a hmatches =>
    (hslotted.eq_of_matches hmatches).symm
  refine ⟨_, hslotted.phiOf_injective b, ?_, hall.1⟩
  rw [← List.forall₂_eq_eq_eq, List.forall₂_map_right_iff]
  exact hall.2.flip

/-- Calls on the stacks of two blocks, mixed with other work.  An entry slot of the first block is
looked at before something is pushed over it, and is popped after slots below it were asked for; it
is then pushed again. -/
def mixed : List Operation :=
  [.call 0 (.peek 3), .ensure 6, .call 1 (.pop 1), .append 0 4 (some (.load "x")),
    .call 0 (.push (some 2)), .call 0 (.exitSlot 5 2), .call 1 (.exitSlot 2 1), .connect 0 1,
    .call 0 (.pop 7), .call 0 (.pop 7), .call 0 (.entrySlot 8 0), .call 0 (.push (some 0)),
    .call 0 (.exitSlot 9 0), .terminate 0 9 (.jump 1), .call 0 (.exitSlot 9 1)]

theorem answers_eq_endless_mixed : Graph.empty.Built ∧ Graph.empty.find? 0 = none ∧
    (Graph.empty.ensure 0).2.answers 0 mixed = [.value (some 0), .nothing, .exit (some 3) true,
      .value (some 2), .value (some 0), .value (some 0), .nothing, .exit (some 0) false,
      .exit (some 3) true] ∧
    ∃ phi : Nat → ValueId, Function.Injective phi ∧
      (Graph.empty.ensure 0).2.answers 0 mixed =
        (Endless.supply.answers (callsOn 0 mixed)).map (·.map (·.operand phi)) ∧
      ∀ r ∈ Endless.supply.answers (callsOn 0 mixed), ∀ k, r.subject? = some (.entry k) →
        (mixed.foldl perform (Graph.empty.ensure 0).2).IsSlot 0 k (phi k) :=
  ⟨.empty, rfl, by decide, Built.answers_eq_endless .empty rfl rfl mixed⟩

end Graph

end StackLift
