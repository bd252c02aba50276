/-
# One stack for a whole function

A machine that runs along blocks and keeps one operand stack for all of them.  It does not compute
values but names them: a token is a value of one visit of a block.  For each value it tells which
tokens the value is made of.

* `Flat.step` : what the machine does for an instruction;
* `Flat.runBlock` : a visit of a block;
* `Graph.Mirrors` : how the machine's stack relates to the stack and the entry slots of a block.
-/
import Mathlib.Data.List.Forall2
import StackLift.Lifting.Step
import StackLift.Proofs.Flow
import StackLift.Proofs.Graph

namespace StackLift

/-! ## The machine -/

/-- A value that is computed along a path: the one of number `index` at the visit of number
`visit`. -/
structure Token where
  visit : Nat
  index : Nat
  deriving DecidableEq, Repr

/-- The state of the machine during a visit of a block. -/
structure Flat where
  /-- The number of the visit. -/
  visit : Nat
  /-- The operand stack, the top first. -/
  stack : List Token
  /-- The operands of the values computed at this visit, in order. -/
  made : List (List Token) := []
  /-- The operands of what leaves the block. -/
  left : List Token := []
  deriving DecidableEq, Repr

/-- How many values an effect takes that are no keywords. -/
def Effect.plain (i : Instruction) : Effect → Nat
  | .storeLocal | .unary _ => 1
  | .binary _ | .compare => 2
  | .call => 1 + Lift.positionalCount i.arg
  | _ => 0

/-- How many keywords an effect takes, each a key and a value. -/
def Effect.keyed (i : Instruction) : Effect → Nat
  | .call => Lift.keywordCount i.arg
  | _ => 0

/-- The values of keys and values in turn. -/
def withoutKeys {α : Type} : List α → List α
  | _ :: v :: rest => v :: withoutKeys rest
  | _ => []

/-- The operands among what an effect takes, the deepest first. -/
def Effect.operands {α : Type} (i : Instruction) (e : Effect) (taken : List α) : List α :=
  taken.take (e.plain i) ++ withoutKeys (taken.drop (e.plain i))

theorem mem_of_mem_withoutKeys {α : Type} {l : List α} {x : α} (h : x ∈ withoutKeys l) : x ∈ l := by
  fun_induction withoutKeys l with
  | case1 k v rest ih =>
    rcases List.mem_cons.1 h with rfl | h
    · exact .tail _ (.head _)
    · exact .tail _ (.tail _ (ih h))
  | case2 => cases h

theorem Effect.mem_of_mem_operands {α : Type} {i : Instruction} {e : Effect} {taken : List α}
    {x : α} (h : x ∈ e.operands i taken) : x ∈ taken := by
  rcases List.mem_append.1 h with h | h
  · exact List.mem_of_mem_take h
  · exact List.mem_of_mem_drop (mem_of_mem_withoutKeys h)

namespace Flat

/-- Computes a value from operands and pushes it. -/
def make (uses : List Token) (f : Flat) : Flat :=
  { f with stack := ⟨f.visit, f.made.length⟩ :: f.stack, made := f.made ++ [uses] }

/-- Takes `n` values off the stack, the deepest first, if there are as many. -/
def take (n : Nat) (f : Flat) : Option (List Token × Flat) :=
  if n ≤ f.stack.length then
    some ((f.stack.take n).reverse, { f with stack := f.stack.drop n })
  else none

/-- Taking values pops the top and takes the others. -/
theorem take_succ {f : Flat} {t : Token} {rest : List Token} (h : f.stack = t :: rest) (n : Nat) :
    f.take (n + 1) =
      ({ f with stack := rest }.take n).map fun (ts, f') => (ts ++ [t], f') := by
  simp only [take, h, List.length_cons, Nat.add_le_add_iff_right]
  by_cases hn : n ≤ rest.length
  · rw [if_pos hn, if_pos hn]
    simp
  · rw [if_neg hn, if_neg hn]
    rfl

/-- What the machine does for an effect.  It stops where there is nothing to take. -/
def perform (i : Instruction) (f : Flat) : Effect → Option Flat
  | .nothing | .jump => some f
  | .forLoop => do
    let iterator ← f.stack.head?
    let f := f.make [iterator]
    some { f with stack := f.stack.tail, left := f.stack.take 1 }
  | .branch pops _ => do
    let cond ← f.stack.head?
    some { f with stack := if pops then f.stack.tail else f.stack, left := [cond] }
  | .ret => do
    let v ← f.stack.head?
    some { f with stack := f.stack.tail, left := [v] }
  | e => do
    let (taken, f) ← f.take (e.plain i + 2 * e.keyed i)
    some (f.make (e.operands i taken))

/-- For an effect from which control goes on the machine takes operands and makes a value. -/
theorem perform_of_goesOn {e : Effect} (hflow : e.flow = .goesOn) (hne : e ≠ .nothing)
    (i : Instruction) (f : Flat) :
    f.perform i e = (f.take (e.plain i + 2 * e.keyed i)).map fun (taken, f) =>
      f.make (e.operands i taken) := by
  cases e with
  | nothing => exact absurd rfl hne
  | forLoop | branch _ _ | jump | ret => cases hflow
  | _ =>
    simp only [perform]
    cases f.take _ <;> rfl

/-- What the machine does for an instruction. -/
def step (f : Flat) (i : Instruction) : Option Flat :=
  match i.op.effect? with
  | some e => f.perform i e
  | none => some f

/-- What the machine can do for an instruction. -/
inductive Moves (f : Flat) (i : Instruction) : Flat → Prop
  | stay : Moves f i f
  /-- It takes values and makes another one from some of them. -/
  | make {n : Nat} {uses : List Token} (he : i.op.effect? ≠ some .forLoop)
      (hn : n ≤ f.stack.length) (huses : ∀ t ∈ uses, t ∈ f.stack) :
      Moves f i ({ f with stack := f.stack.drop n }.make uses)
  /-- In the header of a loop, what it makes is not pushed but leaves the block. -/
  | header {v : Token} (he : i.op.effect? = some .forLoop) (hv : f.stack.head? = some v) :
      Moves f i { f.make [v] with stack := f.stack, left := [⟨f.visit, f.made.length⟩] }
  | leave {v : Token} (pops : Bool) (hv : f.stack.head? = some v) :
      Moves f i { f with stack := if pops then f.stack.tail else f.stack, left := [v] }

theorem moves_of_step {f f' : Flat} {i : Instruction} (h : f.step i = some f') : f.Moves i f' := by
  unfold step at h
  split at h
  · rename_i e he
    cases e with
    | nothing | jump =>
      cases h
      exact .stay
    | forLoop =>
      obtain ⟨iterator, hiterator, h⟩ := Option.bind_eq_some_iff.1 h
      cases h
      exact .header he hiterator
    | branch pops _ =>
      obtain ⟨v, hv, h⟩ := Option.bind_eq_some_iff.1 h
      cases h
      exact .leave pops hv
    | ret =>
      obtain ⟨v, hv, h⟩ := Option.bind_eq_some_iff.1 h
      cases h
      exact .leave true hv
    | _ =>
      rw [perform_of_goesOn rfl (by simp)] at h
      obtain ⟨⟨taken, f₁⟩, htake, rfl⟩ := Option.map_eq_some_iff.1 h
      unfold take at htake
      split at htake
      · rename_i hn
        cases htake
        refine .make (by simp [he]) hn fun t ht => ?_
        exact List.mem_of_mem_take (List.mem_reverse.1 (Effect.mem_of_mem_operands ht))
      · cases htake
  · cases h
    exact .stay

theorem step_ret {i : Instruction} (he : i.op.effect? = some .ret) (f : Flat) :
    f.step i = f.stack.head?.map fun v => { f with stack := f.stack.tail, left := [v] } := by
  simp only [step, he, perform]
  cases f.stack.head? <;> rfl

theorem step_branch {i : Instruction} {pops jumpsOn : Bool}
    (he : i.op.effect? = some (.branch pops jumpsOn)) (f : Flat) :
    f.step i = f.stack.head?.map fun v =>
      { f with stack := if pops then f.stack.tail else f.stack, left := [v] } := by
  simp only [step, he, perform]
  cases f.stack.head? <;> rfl

/-- What the machine does when a block is entered: it pushes the arguments, and in the body of a
loop the next element of the iterator that is on top. -/
def enter (args : List String) (looped : Bool) (f : Flat) : Flat :=
  let f := args.foldl (fun f _ => f.make []) f
  if looped then f.make (f.stack.take 1) else f

/-- A visit of a block with the given run. -/
def runBlock (args : List String) (looped : Bool) (run : List Instruction) (f : Flat) :
    Option Flat :=
  run.foldlM step (f.enter args looped)

end Flat

/-! ## Operands -/

/-- The operands of a value. -/
def Expr.operands : Expr → List Operand
  | .store _ v => [v]
  | .call callee args keywords =>
    (match callee with
      | some (.operator _) => []
      | some (.value v) => [some v]
      | none => [none]) ++ args ++ keywords.map (·.value)
  | _ => []

/-- The operands with which a block is left. -/
def Terminator.operands : Terminator → List Operand
  | .branch cond _ _ => [cond]
  | .ret v => [v]
  | _ => []

/-! ## Blocks and the machine -/

/-- Whether an operand stands for a token at the visit `n` of a block that is entered with a
stack: it is a value of the block, or the phi of an entry slot in which the token is. -/
def Block.Denotes (x : Block) (n : Nat) (entry : List Token) (v : Operand) (t : Token) : Prop :=
  ∃ u, v = some u ∧ ((∃ k : Nat, x.body[k]? = some u ∧ t = ⟨n, k⟩) ∨
    ∃ k : Nat, x.phis[k]? = some u ∧ entry[k]? = some t)

theorem Block.Denotes.mono {x x' : Block} {n : Nat} {entry : List Token} {v : Operand} {t : Token}
    (h : x.Denotes n entry v t)
    (hphis : ∀ (k : Nat) v, x.phis[k]? = some v → x'.phis[k]? = some v)
    (hbody : ∀ (k : Nat) v, x.body[k]? = some v → x'.body[k]? = some v) :
    x'.Denotes n entry v t := by
  obtain ⟨u, rfl, ⟨k, hk, ht⟩ | ⟨k, hk, ht⟩⟩ := h
  · exact ⟨u, rfl, .inl ⟨k, hbody k u hk, ht⟩⟩
  · exact ⟨u, rfl, .inr ⟨k, hphis k u hk, ht⟩⟩

namespace Graph

/-- Whether the machine is where a block is that was entered with a stack: above the entry slots
that were popped it has the stack of the block, and it made the values of the block from their
operands.  In the body of a loop that need not be so of the first value. -/
structure Mirrors (g : Graph) (b : BlockId) (looped : Bool) (n : Nat) (entry : List Token)
    (f : Flat) : Prop where
  visit_eq : f.visit = n
  enough : (g.block b).phis.size ≤ entry.length
  stack : ∃ top, f.stack = top ++ entry.drop (g.block b).used ∧
    List.Forall₂ ((g.block b).Denotes n entry) (g.block b).stack top
  count : f.made.length = (g.block b).body.size
  made : ∀ (k : Nat) v uses, (looped = true → k ≠ 0) → (g.block b).body[k]? = some v →
    f.made[k]? = some uses → ∃ e, (g.definition v).expr = some e ∧
      List.Forall₂ ((g.block b).Denotes n entry) e.operands uses

namespace Mirrors

variable {g g' : Graph} {b : BlockId} {looped : Bool} {n : Nat} {entry : List Token} {f : Flat}

/-- What was made stays so in a graph that was added to. -/
theorem made_of_extends (h : g.Mirrors b looped n entry f) (htyped : g.Typed) (hext : g.Extends g')
    {k : Nat} {v : ValueId} {uses : List Token} (hloop : looped = true → k ≠ 0)
    (hv : (g.block b).body[k]? = some v) (huses : f.made[k]? = some uses) :
    ∃ e, (g'.definition v).expr = some e ∧
      List.Forall₂ ((g'.block b).Denotes n entry) e.operands uses := by
  obtain ⟨e, he, hall⟩ := h.made k v uses hloop hv huses
  refine ⟨e, ?_, ?_⟩
  · rw [hext.definition_eq v (htyped.body b k v hv).1, he]
  · exact hall.imp fun u t hut => hut.mono (hext.phis_mono b) (hext.body_mono b)

/-- The machine stays where a block is if the block only gets entry slots in which there is
something. -/
theorem of_extends (h : g.Mirrors b looped n entry f) (htyped : g.Typed) (hext : g.Extends g')
    (hbody : (g'.block b).body = (g.block b).body) (hstack : (g'.block b).stack = (g.block b).stack)
    (hused : (g'.block b).used = (g.block b).used)
    (henough : (g'.block b).phis.size ≤ entry.length) : g'.Mirrors b looped n entry f where
  visit_eq := h.visit_eq
  enough := henough
  stack := by
    obtain ⟨top, heq, hall⟩ := h.stack
    rw [hused, hstack]
    exact ⟨top, heq, hall.imp fun u t hut => hut.mono (hext.phis_mono b) (hext.body_mono b)⟩
  count := by rw [hbody, h.count]
  made k v uses hloop hv huses := h.made_of_extends htyped hext hloop (hbody ▸ hv) huses

/-- An entry slot from which nothing was popped yet is on the machine's stack, if it is there. -/
theorem entry_cases (h : g.Mirrors b looped n entry f) (hstack : (g.block b).stack = []) :
    (entry.length ≤ (g.block b).used ∧ f.stack = []) ∨
      ∃ t, entry[(g.block b).used]? = some t ∧
        f.stack = t :: entry.drop ((g.block b).used + 1) := by
  obtain ⟨top, heq, hall⟩ := h.stack
  rw [hstack] at hall
  cases hall
  rw [List.nil_append] at heq
  rcases Nat.lt_or_ge (g.block b).used entry.length with hlt | hge
  · exact .inr ⟨entry[(g.block b).used], List.getElem?_eq_getElem hlt,
      by rw [heq, List.drop_eq_getElem_cons hlt]⟩
  · exact .inl ⟨hge, by rw [heq, List.drop_eq_nil_of_le hge]⟩

/-- The machine sees what a block sees on top, or nothing if there are not enough entry slots. -/
theorem peek (h : g.Mirrors b looped n entry f) (htyped : g.Typed) (hb : b < g.blocks.size)
    (line : Int) :
    (((g.peek b line).2.block b).phis.size ≤ entry.length →
      ∃ t rest, f.stack = t :: rest ∧
        ((g.peek b line).2.block b).Denotes n entry (g.peek b line).1 t ∧
        (g.peek b line).2.Mirrors b looped n entry f) ∧
    (entry.length < ((g.peek b line).2.block b).phis.size → f.stack = []) := by
  have hext := (g.worksIn_peek b line).toExtends
  rcases peek_cases hb line with ⟨v, rest, hstack, hv, hblock⟩ |
    ⟨new, v, hstack, hsize, hv, hslot, hblock⟩
  · obtain ⟨top, heq, hall⟩ := h.stack
    rw [hstack] at hall
    cases hall with
    | cons hvt hrest =>
      constructor
      · intro henough
        refine ⟨_, _, heq, by rw [hblock, hv]; exact hvt, ?_⟩
        exact h.of_extends htyped hext (by rw [hblock]) (by rw [hblock]) (by rw [hblock]) henough
      · intro hshort
        rw [hblock] at hshort
        exact absurd h.enough (Nat.not_le_of_lt hshort)
  · -- an entry slot is on top, and the block has phis up to it now
    have hsize' : ((g.peek b line).2.block b).phis.size =
        max (g.block b).phis.size ((g.block b).used + 1) := by
      rw [hblock, Array.size_append, hsize]
      omega
    rcases h.entry_cases hstack with ⟨hle, hempty⟩ | ⟨t, ht, hcons⟩
    · refine ⟨fun henough => ?_, fun _ => hempty⟩
      omega
    · have hlt := (List.getElem?_eq_some_iff.1 ht).1
      refine ⟨fun henough => ⟨t, _, hcons, ?_, ?_⟩, fun hshort => ?_⟩
      · exact ⟨v, hv, .inr ⟨_, by rw [hblock]; exact hslot, ht⟩⟩
      · exact h.of_extends htyped hext (by rw [hblock]) (by rw [hblock]) (by rw [hblock]) henough
      · have := h.enough
        omega

/-- The machine takes the top if the block does. -/
theorem dropTop {t : Token} {rest : List Token} (h : g.Mirrors b looped n entry f)
    (hb : b < g.blocks.size) (htop : f.stack = t :: rest) :
    (g.modifyBlock b Graph.dropTop).Mirrors b looped n entry { f with stack := rest } := by
  have hblock := block_modifyBlock_self hb Graph.dropTop
  have hdenotes : (Graph.dropTop (g.block b)).Denotes n entry = (g.block b).Denotes n entry := by
    unfold Block.Denotes
    rw [phis_dropTop, body_dropTop]
  refine ⟨h.visit_eq, ?_, ?_, ?_, ?_⟩
  · rw [hblock, phis_dropTop]
    exact h.enough
  · obtain ⟨top, heq, hall⟩ := h.stack
    rw [htop] at heq
    rw [hblock, hdenotes]
    cases hstack : (g.block b).stack with
    | nil =>
      -- the top is in an entry slot
      rw [hstack] at hall
      cases hall
      rw [List.nil_append] at heq
      rw [dropTop_of_nil hstack]
      refine ⟨[], ?_, by rw [hstack]; exact .nil⟩
      rw [List.nil_append, ← List.tail_drop, ← heq, List.tail_cons]
    | cons u below =>
      rw [hstack] at hall
      rw [dropTop_of_cons hstack]
      cases hall with
      | cons _ hbelow => exact ⟨_, (List.cons_eq_cons.1 heq).2, hbelow⟩
  · rw [hblock, body_dropTop]
    exact h.count
  · intro k v uses hloop hv huses
    rw [hblock, body_dropTop] at hv
    rw [hblock, hdenotes]
    exact h.made k v uses hloop hv huses

/-- The machine pops what a block pops, or finds nothing if there are not enough entry slots. -/
theorem pop (h : g.Mirrors b looped n entry f) (htyped : g.Typed) (hb : b < g.blocks.size)
    (line : Int) :
    (((g.pop b line).2.block b).phis.size ≤ entry.length →
      ∃ t rest, f.stack = t :: rest ∧
        ((g.pop b line).2.block b).Denotes n entry (g.pop b line).1 t ∧
        (g.pop b line).2.Mirrors b looped n entry { f with stack := rest }) ∧
    (entry.length < ((g.pop b line).2.block b).phis.size → f.stack = []) := by
  have hb' : b < (g.peek b line).2.blocks.size := (g.worksIn_peek b line).size_eq ▸ hb
  have hphis : ((g.pop b line).2.block b).phis = ((g.peek b line).2.block b).phis := by
    rw [pop_eq, block_modifyBlock_self hb', phis_dropTop]
  have hbody : ((g.pop b line).2.block b).body = ((g.peek b line).2.block b).body := by
    rw [pop_eq, block_modifyBlock_self hb', body_dropTop]
  obtain ⟨hsome, hnone⟩ := h.peek htyped hb line
  rw [hphis]
  refine ⟨fun henough => ?_, hnone⟩
  obtain ⟨t, rest, htop, ht, hpeek⟩ := hsome henough
  refine ⟨t, rest, htop, ?_, ?_⟩
  · rw [Block.Denotes, hphis, hbody, pop_eq]
    exact ht
  · rw [pop_eq]
    exact hpeek.dropTop hb' htop

theorem top (h : g.Mirrors b looped n entry f) (htyped : g.Typed) (hb : b < g.blocks.size)
    (pops : Bool) (line : Int) :
    (((g.top pops b line).2.block b).phis.size ≤ entry.length →
      ∃ t rest, f.stack = t :: rest ∧
        ((g.top pops b line).2.block b).Denotes n entry (g.top pops b line).1 t ∧
        (g.top pops b line).2.Mirrors b looped n entry
          { f with stack := if pops then rest else f.stack }) ∧
    (entry.length < ((g.top pops b line).2.block b).phis.size → f.stack = []) := by
  cases pops with
  | true => exact h.pop htyped hb line
  | false => exact h.peek htyped hb line

/-- The machine makes the value that a block emits, if the operands are the same. -/
theorem emit (h : g.Mirrors b looped n entry f) (htyped : g.Typed) (hb : b < g.blocks.size)
    (line : Int) {e : Expr} {uses : List Token}
    (huses : List.Forall₂ ((g.block b).Denotes n entry) e.operands uses) :
    (g.emit b line e).Mirrors b looped n entry (f.make uses) := by
  have hext := (g.worksIn_emit b line e).toExtends
  have hmono : ∀ {u : Operand} {t : Token}, (g.block b).Denotes n entry u t →
      ((g.emit b line e).block b).Denotes n entry u t :=
    fun hut => hut.mono (hext.phis_mono b) (hext.body_mono b)
  have hblock := block_emit_self hb line e
  have hlast : ((g.emit b line e).block b).body[(g.block b).body.size]? =
      some g.definitions.size := by
    rw [hblock, Array.getElem?_push_size]
  refine ⟨h.visit_eq, ?_, ?_, ?_, ?_⟩
  · rw [hblock]
    exact h.enough
  · obtain ⟨top, heq, hall⟩ := h.stack
    refine ⟨⟨n, (g.block b).body.size⟩ :: top, ?_, ?_⟩
    · rw [Flat.make, heq, hblock, h.visit_eq, h.count, List.cons_append]
    · have hstack : ((g.emit b line e).block b).stack =
          some g.definitions.size :: (g.block b).stack := by rw [hblock]
      rw [hstack]
      exact .cons ⟨_, rfl, .inl ⟨_, hlast, rfl⟩⟩ (hall.imp fun _ _ => hmono)
  · rw [hblock, Array.size_push, Flat.make, List.length_append, h.count]
    rfl
  · intro k v us hloop hv hus
    rcases Nat.lt_or_ge k (g.block b).body.size with hk | hk
    · have hv' : (g.block b).body[k]? = some v := by
        rw [hblock, Array.getElem?_push_lt hk] at hv
        rw [Array.getElem?_eq_getElem hk, hv]
      have hus' : f.made[k]? = some us := by
        rwa [Flat.make, List.getElem?_append_left (by rw [h.count]; exact hk)] at hus
      exact h.made_of_extends htyped hext hloop hv' hus'
    · -- the new value, made of the given operands
      have hkeq : k = (g.block b).body.size := by
        have := (Array.getElem?_eq_some_iff.1 hv).1
        rw [hblock, Array.size_push] at this
        omega
      subst hkeq
      rw [hlast] at hv
      cases hv
      rw [Flat.make, ← h.count, List.getElem?_append_right (Nat.le_refl _), Nat.sub_self] at hus
      cases hus
      exact ⟨e, by rw [definition_emit, if_pos rfl], huses.imp fun _ _ => hmono⟩

end Mirrors

/-! ## Taking several values -/

/-- Whether popping values in a block, the deepest of which comes first in the list, leads from
one graph to another. -/
inductive Takes (b : BlockId) : Graph → List Operand → Graph → Prop
  | nil (g : Graph) : Takes b g [] g
  | pop {g g' : Graph} {line : Int} {vs : List Operand} (h : Takes b (g.pop b line).2 vs g') :
      Takes b g (vs ++ [(g.pop b line).1]) g'

namespace Takes

variable {g g' g'' : Graph} {b : BlockId} {vs us : List Operand}

theorem advances (h : Takes b g vs g') : Advances b g g' := by
  induction h with
  | nil g => exact .refl b g
  | pop _ ih => exact (advances_pop _ b _).trans ih

/-- What is taken later is deeper. -/
theorem append (h : Takes b g vs g') (h' : Takes b g' us g'') : Takes b g (us ++ vs) g'' := by
  induction h with
  | nil g => simpa using h'
  | pop _ ih =>
    rw [← List.append_assoc]
    exact .pop (ih h')

end Takes

/-- The machine takes what a block takes, or finds too little if there are not enough entry
slots. -/
theorem Mirrors.takes {g g' : Graph} {b : BlockId} {looped : Bool} {n : Nat} {entry : List Token}
    {f : Flat} {vs : List Operand} (h : g.Mirrors b looped n entry f) (htyped : g.Typed)
    (hb : b < g.blocks.size) (htakes : Takes b g vs g') :
    ((g'.block b).phis.size ≤ entry.length →
      ∃ ts f', f.take vs.length = some (ts, f') ∧
        List.Forall₂ ((g'.block b).Denotes n entry) vs ts ∧ g'.Mirrors b looped n entry f') ∧
    (entry.length < (g'.block b).phis.size → f.take vs.length = none) := by
  induction htakes generalizing f with
  | nil g =>
    refine ⟨fun _ => ⟨[], f, ?_, .nil, h⟩, fun hshort => absurd h.enough (Nat.not_le_of_lt hshort)⟩
    simp [Flat.take]
  | @pop g g' line vs hrest ih =>
    have hext := hrest.advances.toExtends
    have hb' : b < (g.pop b line).2.blocks.size := (g.worksIn_pop b line).size_eq ▸ hb
    rw [List.length_append, List.length_singleton]
    obtain ⟨hsome, hnone⟩ := h.pop htyped hb line
    rcases Nat.lt_or_ge entry.length ((g.pop b line).2.block b).phis.size with hshort | henough
    · have hle := hext.phis_size_le b
      refine ⟨fun henough => absurd henough (by omega), fun _ => ?_⟩
      simp [Flat.take, hnone hshort]
    · obtain ⟨t, rest, hstack, ht, hmirrors⟩ := hsome henough
      obtain ⟨hsome', hnone'⟩ := ih hmirrors (htyped.pop hb line) hb'
      rw [Flat.take_succ hstack]
      refine ⟨fun hle => ?_, fun hshort => by rw [hnone' hshort]; rfl⟩
      obtain ⟨ts, f', htake, hall, hmirrors'⟩ := hsome' hle
      refine ⟨ts ++ [t], f', by rw [htake]; rfl, ?_, hmirrors'⟩
      exact List.rel_append hall
        (.cons (ht.mono (hext.phis_mono b) (hext.body_mono b)) .nil)

/-! ## Effects from which control goes on -/

/-- Whether an effect takes its operands in a block and emits one value made of them. -/
def Emits (b : BlockId) (i : Instruction) (e : Effect) (g g' : Graph) : Prop :=
  ∃ vs g₁ line ex, Takes b g vs g₁ ∧ vs.length = e.plain i + 2 * e.keyed i ∧
    (∀ p, ex ≠ Expr.phi p) ∧ ex.operands = e.operands i vs ∧ g' = g₁.emit b line ex

theorem Emits.advances {g g' : Graph} {b : BlockId} {i : Instruction} {e : Effect}
    (h : Emits b i e g g') : Advances b g g' := by
  obtain ⟨vs, g₁, line, ex, htakes, -, hphi, -, rfl⟩ := h
  exact htakes.advances.trans (g₁.advances_emit b line hphi)

/-- Operands that stand for tokens stand for those at the same places. -/
theorem forall₂_operands {R : Operand → Token → Prop} {vs : List Operand} {ts : List Token}
    (h : List.Forall₂ R vs ts) (i : Instruction) (e : Effect) :
    List.Forall₂ R (e.operands i vs) (e.operands i ts) := by
  have hkeys : ∀ {us : List Operand} {ws : List Token}, List.Forall₂ R us ws →
      List.Forall₂ R (withoutKeys us) (withoutKeys ws) := by
    intro us
    fun_induction withoutKeys us with
    | case1 k v rest ih =>
      intro ws hws
      cases hws with
      | cons hk hws =>
        cases hws with
        | cons hv hrest => exact .cons hv (ih hrest)
    | case2 us hus =>
      intro ws hws
      match us, ws, hws with
      | [], [], _ => exact .nil
      | [_], [_], _ => exact .nil
      | k :: v :: rest, _, _ => exact absurd rfl (hus k v rest)
  exact List.rel_append (List.forall₂_take _ h) (hkeys (List.forall₂_drop _ h))

/-- The machine does for an effect what is done in the block, or finds too little. -/
theorem Mirrors.emits {g g' : Graph} {b : BlockId} {i : Instruction} {e : Effect} {looped : Bool}
    {n : Nat} {entry : List Token} {f : Flat} (h : g.Mirrors b looped n entry f)
    (htyped : g.Typed) (hb : b < g.blocks.size) (hflow : e.flow = .goesOn) (hne : e ≠ .nothing)
    (hemits : Emits b i e g g') :
    ((g'.block b).phis.size ≤ entry.length →
      ∃ f', f.perform i e = some f' ∧ f'.left = f.left ∧ g'.Mirrors b looped n entry f') ∧
    (entry.length < (g'.block b).phis.size → f.perform i e = none) := by
  obtain ⟨vs, g₁, line, ex, htakes, hlength, -, hops, rfl⟩ := hemits
  have hb₁ : b < g₁.blocks.size := htakes.advances.size_eq ▸ hb
  have hphis : ((g₁.emit b line ex).block b).phis = (g₁.block b).phis := by
    rw [block_emit_self hb₁]
  obtain ⟨hsome, hnone⟩ := h.takes htyped hb htakes
  rw [hphis, Flat.perform_of_goesOn hflow hne, ← hlength]
  constructor
  · intro henough
    obtain ⟨ts, f', htake, hall, hmirrors⟩ := hsome henough
    refine ⟨f'.make (e.operands i ts), by rw [htake]; rfl, ?_, ?_⟩
    · unfold Flat.take at htake
      split at htake
      · cases htake
        rfl
      · cases htake
    · have huses := forall₂_operands hall i e
      rw [← hops] at huses
      exact hmirrors.emit (htakes.advances.typed htyped hb) hb₁ line huses
  · intro hshort
    rw [hnone hshort]
    rfl

/-! ## Following a block -/

/-- Whether a machine that begins a visit with a number and a stack ends where a block is, and
satisfies a relation there in which operands stand for tokens.  It finds too little exactly if
the stack does not fill the entry slots of the block. -/
def Tracks (g : Graph) (b : BlockId) (looped : Bool) (machine : Flat → Option Flat)
    (R : (Operand → Token → Prop) → Flat → Prop) : Prop :=
  ∀ n entry, ((g.block b).phis.size ≤ entry.length →
      ∃ f, machine { visit := n, stack := entry } = some f ∧ g.Mirrors b looped n entry f ∧
        R ((g.block b).Denotes n entry) f) ∧
    (entry.length < (g.block b).phis.size → machine { visit := n, stack := entry } = none)

/-- Whether the machine follows a block through the beginning of its run. -/
def Follows (g : Graph) (b : BlockId) (args : List String) (looped : Bool)
    (run : List Instruction) : Prop :=
  g.Tracks b looped (Flat.runBlock args looped run) fun _ f => f.left = []

section

variable {g g' : Graph} {b : BlockId} {looped : Bool} {args : List String}
  {run : List Instruction} {i : Instruction}

/-- What the machine tracks does not depend on the rest of the graph. -/
theorem Tracks.of_extends {machine : Flat → Option Flat}
    {R : (Operand → Token → Prop) → Flat → Prop} (h : g.Tracks b looped machine R)
    (htyped : g.Typed) (hext : g.Extends g') (hphis : (g'.block b).phis = (g.block b).phis)
    (hbody : (g'.block b).body = (g.block b).body) (hstack : (g'.block b).stack = (g.block b).stack)
    (hused : (g'.block b).used = (g.block b).used) : g'.Tracks b looped machine R := by
  intro n entry
  obtain ⟨hsome, hnone⟩ := h n entry
  have hdenotes : (g'.block b).Denotes n entry = (g.block b).Denotes n entry := by
    unfold Block.Denotes
    rw [hphis, hbody]
  rw [hphis, hdenotes]
  refine ⟨fun henough => ?_, hnone⟩
  obtain ⟨f, hf, hmirrors, hR⟩ := hsome henough
  exact ⟨f, hf, hmirrors.of_extends htyped hext hbody hstack hused (hphis ▸ henough), hR⟩

/-- The machine goes on tracking a block if it does what the block does. -/
theorem Tracks.bind {machine : Flat → Option Flat} {R R' : (Operand → Token → Prop) → Flat → Prop}
    {next : Flat → Option Flat} (h : g.Tracks b looped machine R)
    (hle : (g.block b).phis.size ≤ (g'.block b).phis.size)
    (hnext : ∀ n entry f, g.Mirrors b looped n entry f → R ((g.block b).Denotes n entry) f →
      ((g'.block b).phis.size ≤ entry.length →
        ∃ f', next f = some f' ∧ g'.Mirrors b looped n entry f' ∧
          R' ((g'.block b).Denotes n entry) f') ∧
      (entry.length < (g'.block b).phis.size → next f = none)) :
    g'.Tracks b looped (fun f => (machine f).bind next) R' := by
  intro n entry
  dsimp only
  obtain ⟨hsome, hnone⟩ := h n entry
  rcases Nat.lt_or_ge entry.length (g.block b).phis.size with hshort | henough
  · refine ⟨fun henough => absurd henough (by omega), fun _ => ?_⟩
    rw [hnone hshort]
    rfl
  · obtain ⟨f, hf, hmirrors, hR⟩ := hsome henough
    rw [hf, Option.bind_some]
    exact hnext n entry f hmirrors hR

/-- A visit through one more instruction. -/
theorem runBlock_concat (args : List String) (looped : Bool) (run : List Instruction)
    (i : Instruction) :
    Flat.runBlock args looped (run ++ [i]) =
      fun f => (f.runBlock args looped run).bind (·.step i) := by
  funext f
  rw [Flat.runBlock, List.foldlM_append]
  cases h : f.runBlock args looped run with
  | none =>
    rw [Flat.runBlock] at h
    rw [h]
    rfl
  | some f' =>
    rw [Flat.runBlock] at h
    rw [h]
    simp

/-- The machine follows a block that was not entered yet. -/
theorem follows_fresh (hphis : (g.block b).phis = #[]) (hbody : (g.block b).body = #[])
    (hstack : (g.block b).stack = []) (hused : (g.block b).used = 0) :
    g.Follows b [] false [] := by
  intro n entry
  rw [hphis]
  refine ⟨fun _ => ⟨_, rfl, ⟨rfl, ?_, ⟨[], ?_, ?_⟩, ?_, ?_⟩, rfl⟩,
    fun hshort => absurd hshort (by simp)⟩
  · simp [hphis]
  · simp [hused, Flat.enter]
  · rw [hstack]
    exact .nil
  · simp [hbody, Flat.enter]
  · intro k v uses _ hv
    simp [hbody] at hv

/-- The machine follows the body of a loop that has only the next element of the iterator. -/
theorem follows_primed {v : ValueId} (hphis : (g.block b).phis = #[])
    (hbody : (g.block b).body = #[v]) (hstack : (g.block b).stack = [some v])
    (hused : (g.block b).used = 0) : g.Follows b [] true [] := by
  intro n entry
  rw [hphis]
  refine ⟨fun _ => ⟨_, rfl, ⟨rfl, ?_, ⟨[⟨n, 0⟩], ?_, ?_⟩, ?_, ?_⟩, rfl⟩,
    fun hshort => absurd hshort (by simp)⟩
  · simp [hphis]
  · simp [hused, Flat.enter, Flat.make]
  · rw [hstack]
    exact .cons ⟨v, rfl, .inl ⟨0, by simp [hbody], rfl⟩⟩ .nil
  · simp [hbody, Flat.enter, Flat.make]
  · intro k u uses hk hu
    rw [hbody] at hu
    have hlt : k < 1 := (Array.getElem?_eq_some_iff.1 hu).1
    exact absurd (Nat.lt_one_iff.1 hlt) (hk rfl)

/-- The machine pushes an argument that the entry pushes. -/
theorem Follows.arg (h : g.Follows b args false []) (htyped : g.Typed) (hb : b < g.blocks.size)
    (line index : Int) (name : String) :
    (g.emit b line (.arg index name)).Follows b (args ++ [name]) false [] := by
  have hmachine : Flat.runBlock (args ++ [name]) false [] =
      fun f => (f.runBlock args false []).bind fun f => some (f.make []) := by
    funext f
    simp [Flat.runBlock, Flat.enter]
  have hphis : ((g.emit b line (.arg index name)).block b).phis = (g.block b).phis := by
    rw [block_emit_self hb]
  rw [Follows, hmachine]
  refine h.bind (Nat.le_of_eq (by rw [hphis])) fun n entry f hmirrors hleft => ?_
  refine ⟨fun _ => ⟨_, rfl, hmirrors.emit htyped hb line .nil, hleft⟩, fun hshort => ?_⟩
  rw [hphis] at hshort
  exact absurd hmirrors.enough (by omega)

/-- The machine follows an instruction that takes operands and emits a value. -/
theorem Follows.emits {e : Effect} (h : g.Follows b args looped run) (htyped : g.Typed)
    (hb : b < g.blocks.size) (he : i.op.effect? = some e) (hflow : e.flow = .goesOn)
    (hne : e ≠ .nothing) (hemits : Emits b i e g g') :
    g'.Follows b args looped (run ++ [i]) := by
  rw [Follows, runBlock_concat]
  refine h.bind (hemits.advances.toExtends.phis_size_le b) fun n entry f hmirrors hleft => ?_
  obtain ⟨hsome, hnone⟩ := hmirrors.emits htyped hb hflow hne hemits
  rw [Flat.step, he]
  refine ⟨fun henough => ?_, hnone⟩
  obtain ⟨f', hf', hleft', hmirrors'⟩ := hsome henough
  exact ⟨f', hf', hmirrors', hleft'.trans hleft⟩

/-- The machine follows an instruction that does nothing. -/
theorem Follows.nothing (h : g.Follows b args looped run) (he : i.op.effect? = some .nothing) :
    g.Follows b args looped (run ++ [i]) := by
  rw [Follows, runBlock_concat]
  refine h.bind (Nat.le_refl _) fun n entry f hmirrors hleft => ?_
  rw [Flat.step, he]
  exact ⟨fun _ => ⟨f, rfl, hmirrors, hleft⟩, fun hshort => absurd hmirrors.enough (by omega)⟩

/-! ## Leaving a block -/

/-- Whether the machine follows a block through its whole run and leaves it with the operands of
its terminator.  At the header of a loop the iterator is on top then. -/
def Finishes (g : Graph) (b : BlockId) (args : List String) (looped : Bool)
    (run : List Instruction) (t : Terminator) (iterator : Option Operand) : Prop :=
  g.Tracks b looped (Flat.runBlock args looped run) fun Denotes f =>
    (t = .retVoid ∨ List.Forall₂ Denotes t.operands f.left) ∧
      ∀ v, iterator = some v → ∃ top rest, f.stack = top :: rest ∧ Denotes v top

/-- The machine leaves a block that runs into the next one. -/
theorem Follows.fall (h : g.Follows b args looped run) (next : BlockId) :
    g.Finishes b args looped run (.jump next) none := by
  intro n entry
  obtain ⟨hsome, hnone⟩ := h n entry
  refine ⟨fun henough => ?_, hnone⟩
  obtain ⟨f, hf, hmirrors, hleft⟩ := hsome henough
  exact ⟨f, hf, hmirrors, .inr (hleft ▸ .nil), by rintro v ⟨⟩⟩

/-- The machine leaves a block by a jump. -/
theorem Follows.jump (h : g.Follows b args looped run) (he : i.op.effect? = some .jump)
    (next : BlockId) : g.Finishes b args looped (run ++ [i]) (.jump next) none := by
  rw [Finishes, runBlock_concat]
  refine h.bind (Nat.le_refl _) fun n entry f hmirrors hleft => ?_
  rw [Flat.step, he]
  exact ⟨fun _ => ⟨f, rfl, hmirrors, .inr (hleft ▸ .nil), by rintro v ⟨⟩⟩,
    fun hshort => absurd hmirrors.enough (by omega)⟩

/-- The machine leaves a block by what is on top, which it may take. -/
theorem Follows.leave {pops : Bool} (h : g.Follows b args looped run) (htyped : g.Typed)
    (hb : b < g.blocks.size) (line : Int) {t : Terminator}
    (ht : t = .retVoid ∨ t.operands = [(g.top pops b line).1])
    (hstep : ∀ f : Flat, f.step i = f.stack.head?.map fun v =>
      { f with stack := if pops then f.stack.tail else f.stack, left := [v] }) :
    (g.top pops b line).2.Finishes b args looped (run ++ [i]) t none := by
  rw [Finishes, runBlock_concat]
  refine h.bind ((g.advances_top pops b line).toExtends.phis_size_le b)
    fun n entry f hmirrors _ => ?_
  obtain ⟨hsome, hnone⟩ := hmirrors.top htyped hb pops line
  rw [hstep]
  constructor
  · intro henough
    obtain ⟨v, rest, hstack, hv, htop⟩ := hsome henough
    rw [hstack] at htop ⊢
    refine ⟨_, rfl, ⟨htop.visit_eq, htop.enough, htop.stack, htop.count, htop.made⟩, ?_,
      by rintro v ⟨⟩⟩
    rcases ht with ht | ht
    · exact .inl ht
    · exact .inr (ht ▸ .cons hv .nil)
  · intro hshort
    rw [hnone hshort]
    rfl

/-- Whether the machine follows a block and then sees an operand on top. -/
def Sees (g : Graph) (b : BlockId) (args : List String) (looped : Bool) (run : List Instruction)
    (v : Operand) : Prop :=
  g.Tracks b looped
    (fun f => (f.runBlock args looped run).bind fun f => f.stack.head?.map fun _ => f)
    fun Denotes f => ∃ top rest, f.stack = top :: rest ∧ Denotes v top

theorem Follows.sees (h : g.Follows b args looped run) (htyped : g.Typed) (hb : b < g.blocks.size)
    (line : Int) : (g.peek b line).2.Sees b args looped run (g.peek b line).1 := by
  refine h.bind ((g.worksIn_peek b line).toExtends.phis_size_le b) fun n entry f hmirrors _ => ?_
  obtain ⟨hsome, hnone⟩ := hmirrors.peek htyped hb line
  constructor
  · intro henough
    obtain ⟨v, rest, hstack, hv, hpeek⟩ := hsome henough
    exact ⟨f, by rw [hstack]; rfl, hpeek, v, rest, hstack, hv⟩
  · intro hshort
    rw [hnone hshort]
    rfl

/-- The machine leaves the header of a loop, in which a value made of the iterator is emitted and
popped again. -/
theorem Sees.loop {v : Operand} (h : g.Sees b args looped run v) (htyped : g.Typed)
    (hb : b < g.blocks.size) (he : i.op.effect? = some .forLoop) (line line' : Int) {e : Expr}
    (hphi : ∀ p, e ≠ .phi p) (hops : e.operands = [v]) {t : Terminator}
    (ht : t.operands = [((g.emit b line e).pop b line').1]) :
    ((g.emit b line e).pop b line').2.Finishes b args looped (run ++ [i]) t (some v) := by
  have hb' : b < (g.emit b line e).blocks.size := (g.worksIn_emit b line e).size_eq ▸ hb
  have hstack : ((g.emit b line e).block b).stack =
      some g.definitions.size :: (g.block b).stack := by rw [block_emit_self hb]
  -- what was emitted is popped from the stack, so no entry slot is used for it
  have hpeek : ((g.emit b line e).peek b line').2 = g.emit b line e := by
    rw [Graph.peek, hstack]
  have hphis : (((g.emit b line e).pop b line').2.block b).phis = (g.block b).phis := by
    rw [pop_eq, hpeek, block_modifyBlock_self hb', phis_dropTop, block_emit_self hb]
  have hext := (g.worksIn_emit b line e).toExtends.trans
    ((g.emit b line e).worksIn_pop b line').toExtends
  have hmachine : Flat.runBlock args looped (run ++ [i]) = fun f =>
      ((f.runBlock args looped run).bind fun f => f.stack.head?.map fun _ => f).bind
        (·.step i) := by
    rw [runBlock_concat]
    funext f
    cases f.runBlock args looped run with
    | none => rfl
    | some f =>
      rw [Option.bind_some, Option.bind_some]
      cases hf : f.stack with
      | nil => simp [Flat.step, he, Flat.perform, hf]
      | cons top rest => rfl
  rw [Finishes, hmachine]
  refine h.bind (Nat.le_of_eq (by rw [hphis])) fun n entry f hmirrors ⟨top, rest, htop, hv⟩ => ?_
  have hemit := hmirrors.emit htyped hb line (hops ▸ List.Forall₂.cons hv .nil)
  refine ⟨fun henough => ?_, fun hshort => absurd hmirrors.enough (by rw [hphis] at hshort; omega)⟩
  obtain ⟨cond, below, hcons, hcond, hpop⟩ :=
    (hemit.pop (htyped.emit hb line hphi) hb' line').1 henough
  obtain ⟨rfl, rfl⟩ : _ = cond ∧ f.stack = below := List.cons_eq_cons.1 hcons
  refine ⟨{ f.make [top] with stack := f.stack, left := [⟨f.visit, f.made.length⟩] }, ?_,
    ⟨hpop.visit_eq, hpop.enough, hpop.stack, hpop.count, hpop.made⟩,
    .inr (ht ▸ .cons hcond .nil), ?_⟩
  · simp [Flat.step, he, Flat.perform, htop, Flat.make]
  · rintro _ ⟨⟩
    exact ⟨top, rest, htop, hv.mono (hext.phis_mono b) (hext.body_mono b)⟩

end

end Graph

end StackLift
