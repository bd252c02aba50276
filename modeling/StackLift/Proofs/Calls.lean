/-
# What a call takes from the stack

A call finds its keywords on top, each value above its key, then its arguments, then what is called.
It pops them one after the other from the stack of its block, which goes on with entry slots where
it runs out, so what it takes is a stretch of the endless stack of the block.

* `Lifter.Stocked` : the states in which a block has values on its stack;
* `Lifter.Popped` : what popping elements leaves behind;
* `Lifter.Called` : what a call makes of the elements that it takes;
* `Lift.call_exact` : a call succeeds if its keys are strings, and is refused otherwise.
-/
import StackLift.Proofs.EndlessStack
import StackLift.Proofs.Flaws

namespace StackLift

/-! ## Counts -/

namespace Lift

/-- The low byte of a word is a remainder. -/
theorem toNat_and_byte (w : BitVec 64) : (w &&& 0xff#64).toNat = w.toNat % 256 := by
  rw [BitVec.toNat_and, show (0xff#64).toNat = 2 ^ 8 - 1 from rfl, Nat.and_two_pow_sub_one_eq_mod]

/-- The positional arguments are counted by the low byte. -/
theorem positionalCount_eq (arg : Int) :
    positionalCount arg = (BitVec.ofInt 64 arg &&& 0xff#64).toNat := by
  rw [toNat_and_byte, BitVec.toNat_ofInt, positionalCount]
  omega

/-- The keywords are counted by the byte above it. -/
theorem keywordCount_eq (arg : Int) :
    keywordCount arg = ((BitVec.ofInt 64 arg).sshiftRight 8 &&& 0xff#64).toNat := by
  have hbmod := Int.bmod_add_bdiv arg 18446744073709551616
  rw [toNat_and_byte, BitVec.sshiftRight, BitVec.toInt_ofInt, Int.shiftRight_eq_div_pow,
    BitVec.toNat_ofInt, keywordCount]
  simp only [Nat.reducePow]
  omega

end Lift

/-! ## Elements of the current block -/

/-- The operand that is an element of the endless stack of a block: an entry value is its phi, if
that is made already. -/
def Block.operand (x : Block) : Element → Operand
  | .pushed v => v
  | .entry k => x.phis[k]?

/-- An element that was pushed is on the stack of the block. -/
theorem Block.mem_stack_of_get_endless {x : Block} {d : Nat} {v : Operand}
    (h : x.endless.get d = .pushed v) : v ∈ x.stack := by
  rcases Nat.lt_or_ge d x.stack.length with hlt | hge
  · rw [get_endless_of_lt hlt] at h
    cases h
    exact List.getElem_mem hlt
  · rw [get_endless_of_ge hge] at h
    cases h

namespace Lifter

variable {s s' s'' : Lifter} {n m d : Nat}

/-- The endless stack of the current block. -/
def endless (s : Lifter) : Endless := (s.graph.block s.current).endless

/-- The constant that is the element at a depth, if it is one. -/
def constantAt? (s : Lifter) (depth : Nat) : Option Constant :=
  s.graph.constant? ((s.graph.block s.current).operand (s.endless.get depth))

/-- Whether the stack of the current block holds values of the graph, and phis are in their
slots. -/
structure Stocked (s : Lifter) : Prop extends s.Solid where
  slotted : s.graph.Slotted
  old : ∀ u, some u ∈ (s.graph.block s.current).stack → u < s.graph.definitions.size

/-- A lifter is stocked wherever it performs an instruction, as it knows its constants there. -/
theorem Knows.stocked {c : Code} {known : List (Option Constant)} (h : s.Knows c known) :
    s.Stocked := ⟨h.toSolid, h.typed.slotted, h.graph.old⟩

/-- Whether a state came out of another one by popping elements of the current block. -/
structure Popped (n : Nat) (s s' : Lifter) : Prop extends s.Aside s' where
  line_eq : s'.line = s.line
  worksIn : Graph.WorksIn s.current s.graph s'.graph
  body_eq : (s'.graph.block s.current).body = (s.graph.block s.current).body
  endless_eq : s'.endless = s.endless.drop n
  stocked : s'.Stocked

namespace Popped

theorem refl (h : s.Stocked) : Popped 0 s s := ⟨.refl s, rfl, .refl _ _, rfl, rfl, h⟩

theorem trans (h : Popped n s s') (h' : Popped m s' s'') : Popped (n + m) s s'' where
  toAside := h.toAside.trans h'.toAside
  line_eq := h'.line_eq.trans h.line_eq
  worksIn := h.worksIn.trans (h.current_eq ▸ h'.worksIn)
  body_eq := by
    have := h'.body_eq
    rw [h.current_eq] at this
    exact this.trans h.body_eq
  endless_eq := by rw [h'.endless_eq, h.endless_eq, Stream'.drop_drop]
  stocked := h'.stocked

/-- What is below the elements that were popped stays where it is. -/
theorem get_endless (h : Popped n s s') (d : Nat) : s'.endless.get d = s.endless.get (d + n) := by
  rw [h.endless_eq, Stream'.get_drop, Nat.add_comm]

/-- An operand that stands for an element goes on to do so. -/
theorem shows (h : Popped n s s') {v : Operand} {e : Element}
    (hshows : (s.graph.block s.current).Shows v e) : (s'.graph.block s'.current).Shows v e := by
  rw [h.current_eq]
  exact hshows.mono h.worksIn.phis_mono

end Popped

/-- An entry value is no constant. -/
theorem Stocked.constant?_phi (h : s.Stocked) (b : BlockId) (k : Nat) :
    s.graph.constant? (s.graph.block b).phis[k]? = none := by
  cases hk : (s.graph.block b).phis[k]? with
  | none => rfl
  | some v =>
    obtain ⟨-, -, p, hp, -⟩ := h.slotted b k v hk
    rw [Graph.constant?, Option.bind_some, Graph.expr_of_phi?_eq_some hp]
    rfl

/-- An operand is the constant that the element is for which it stands. -/
theorem Popped.constant?_eq (h : Popped n s s') (hs : s.Stocked) {v : Operand}
    (hshows : (s'.graph.block s'.current).Shows v (s.endless.get d)) :
    s'.graph.constant? v = s.constantAt? d := by
  unfold constantAt?
  cases he : s.endless.get d with
  | pushed u =>
    rw [he] at hshows
    cases hshows
    cases v with
    | none => rfl
    | some u =>
      have hlt := hs.old u (Block.mem_stack_of_get_endless he)
      rw [Block.operand, Graph.constant?, Graph.constant?, Option.bind_some, Option.bind_some,
        h.worksIn.definition_eq u hlt]
  | entry k =>
    rw [he] at hshows
    obtain ⟨u, rfl, hu⟩ := hshows
    rw [Block.operand, hs.constant?_phi, ← hu, h.stocked.constant?_phi]

/-- Popping changes no constant that is left. -/
theorem Popped.constantAt?_eq (h : Popped n s s') (hs : s.Stocked) (d : Nat) :
    s'.constantAt? d = s.constantAt? (d + n) := by
  have hget := h.get_endless d
  cases he : s'.endless.get d with
  | pushed u =>
    rw [← h.constant?_eq hs (d := d + n) (v := u) (by rw [← hget, he]; rfl), constantAt?, he]
    rfl
  | entry k =>
    unfold constantAt?
    rw [← hget, he, Block.operand, Block.operand, hs.constant?_phi, h.stocked.constant?_phi]

end Lifter

namespace Lift

open Lifter

variable {s s' : Lifter} {i : Instruction}

/-! ## Popping -/

/-- Popping takes the top of the endless stack. -/
theorem pop_popped (h : s.Stocked) : ∃ u s', pop s = .ok (some u) s' ∧ Popped 1 s s' ∧
    (s'.graph.block s'.current).Shows (some u) s.endless.head := by
  obtain ⟨v, s', hok, hsolid⟩ := exists_top h.toSolid true
  have hpop : pop s = .ok v s' := hok
  obtain ⟨haside, hgraph, hv⟩ := pop_ok hpop
  obtain ⟨⟨u, hu⟩, -⟩ := top_solid h.toSolid true
  obtain rfl : v = some u := hv.trans hu
  obtain ⟨hendless, hshows⟩ := Graph.pop_shows h.lt_size s.line
  have hwork := s.graph.worksIn_pop s.current s.line
  rw [← hgraph] at hendless hshows hwork
  refine ⟨u, s', hpop, ⟨haside, line_of_pop hpop, hwork, ?_, ?_, hsolid, ?_, ?_⟩, ?_⟩
  · have hlt : s.current < (s.graph.peek s.current s.line).2.blocks.size :=
      (s.graph.worksIn_peek s.current s.line).size_eq ▸ h.lt_size
    rw [hgraph, Graph.pop_eq, Graph.block_modifyBlock_self hlt, Graph.body_dropTop]
    rcases Graph.peek_cases h.lt_size s.line with ⟨_, _, -, -, hblock⟩ | ⟨_, _, -, -, -, -, hblock⟩
    · rw [hblock]
    · rw [hblock]
  · rw [endless, haside.current_eq, hendless]
    rfl
  · rw [hgraph]
    exact h.slotted.pop s.current s.line
  · intro u hu
    rw [haside.current_eq, hgraph, Graph.stack_pop h.lt_size] at hu
    exact Nat.lt_of_lt_of_le (h.old u (List.mem_of_mem_tail hu)) hwork.count_le
  · rw [haside.current_eq, hv]
    exact hshows

/-- Arguments are popped from the last one to the first. -/
theorem popArgs_popped (h : s.Stocked) (n : Nat) (after : List Operand) :
    ∃ vs s', popArgs n after s = .ok (vs ++ after) s' ∧ Popped n s s' ∧
      List.Forall₂ (s'.graph.block s'.current).Shows vs (s.endless.take n).reverse := by
  induction n generalizing s after with
  | zero => exact ⟨[], s, rfl, .refl h, .nil⟩
  | succ n ih =>
    obtain ⟨u, s₁, hpop, hpopped, hshows⟩ := pop_popped h
    obtain ⟨vs, s', hargs, hrest, hall⟩ := ih hpopped.stocked (some u :: after)
    refine ⟨vs ++ [some u], s', ?_, ?_, ?_⟩
    · rw [popArgs, bind_of_ok hpop, hargs, List.append_assoc]
      rfl
    · rw [Nat.add_comm]
      exact hpopped.trans hrest
    · rw [Stream'.take_succ, List.reverse_cons]
      rw [hpopped.endless_eq] at hall
      exact List.rel_append hall (.cons (hrest.shows hshows) .nil)

/-- Whether a keyword is made of two elements: its value at twice a depth, and the string below it,
which is its name. -/
structure IsKeyword (s s' : Lifter) (k : Keyword) (j : Nat) : Prop where
  name : s.constantAt? (2 * j + 1) = some (.str k.name)
  value : (s'.graph.block s'.current).Shows k.value (s.endless.get (2 * j))

theorem IsKeyword.of_popped {s₁ : Lifter} {k : Keyword} {j : Nat} (h : IsKeyword s₁ s' k j)
    (hs : s.Stocked) (hpopped : Popped 2 s s₁) : IsKeyword s s' k (j + 1) := by
  constructor
  · rw [← h.name, hpopped.constantAt?_eq hs]
    rfl
  · have := h.value
    rwa [hpopped.get_endless] at this

/-- Whether the element at a depth is a string constant. -/
def IsString (s : Lifter) (depth : Nat) : Prop := ∃ name, s.constantAt? depth = some (.str name)

/-- Keywords are popped from the last one to the first, until there is a key that is no string. -/
theorem popKeywords_cases (h : s.Stocked) (i : Instruction) (n : Nat) (after : List Keyword) :
    ((∀ j < n, IsString s (2 * j + 1)) ∧ ∃ kws s', popKeywords i n after s = .ok (kws ++ after) s' ∧
      Popped (2 * n) s s' ∧ List.Forall₂ (IsKeyword s s') kws (List.range n).reverse) ∨
    ∃ j < n, ∃ cause s', keyError? (s.constantAt? (2 * j + 1)) = some cause ∧
      popKeywords i n after s = .error (.error (.step i cause)) s' := by
  induction n generalizing s after with
  | zero => exact .inl ⟨fun j hj => absurd hj (Nat.not_lt_zero j), [], s, rfl, .refl h, .nil⟩
  | succ n ih =>
    obtain ⟨value, s₁, hpop₁, hpopped₁, hvalue⟩ := pop_popped h
    obtain ⟨key, s₂, hpop₂, hpopped₂, hkey⟩ := pop_popped hpopped₁.stocked
    have hpopped : Popped 2 s s₂ := hpopped₁.trans hpopped₂
    have hconst : s₂.graph.constant? (some key) = s.constantAt? 1 := by
      rw [Stream'.head, hpopped₁.get_endless] at hkey
      exact hpopped.constant?_eq h hkey
    rw [popKeywords, bind_of_ok hpop₁, bind_of_ok hpop₂]
    rcases keywordName_cases i (some key) s₂ with ⟨name, hname, hok⟩ | ⟨cause, hcause, hstop⟩
    · rw [hconst] at hname
      rw [bind_of_ok hok]
      rcases ih hpopped.stocked (⟨name, some value⟩ :: after) with
        ⟨hstrings, kws, s', hkws, hrest, hall⟩ | ⟨j, hj, cause, s', hcause, hstop⟩
      · refine .inl ⟨?_, kws ++ [⟨name, some value⟩], s', ?_, ?_, ?_⟩
        · intro j hj
          cases j with
          | zero => exact ⟨name, hname⟩
          | succ j =>
            obtain ⟨name', hname'⟩ := hstrings j (Nat.lt_of_succ_lt_succ hj)
            exact ⟨name', by rw [← hname', hpopped.constantAt?_eq h]; rfl⟩
        · rw [hkws, List.append_assoc]
          rfl
        · rw [Nat.mul_succ, Nat.add_comm]
          exact hpopped.trans hrest
        · rw [List.range_succ_eq_map, List.reverse_cons, ← List.map_reverse]
          refine List.rel_append ?_ (.cons ⟨hname, hrest.shows (hpopped₂.shows hvalue)⟩ .nil)
          rw [List.forall₂_map_right_iff]
          exact hall.imp fun k j hkeyword => hkeyword.of_popped h hpopped
      · refine .inr ⟨j + 1, Nat.succ_lt_succ hj, cause, s', ?_, hstop⟩
        rw [← hcause, hpopped.constantAt?_eq h]
        rfl
    · rw [hconst] at hcause
      exact .inr ⟨0, Nat.succ_pos n, cause, s₂, hcause, bind_of_error hstop⟩

/-! ## Calls -/

end Lift

/-- What a call with `a` arguments and `w` keywords makes of the stack: the elements that it takes
are gone, and its value is on top.  Arguments and keywords stand in the order in which they were
pushed. -/
structure Lifter.Called (a w : Nat) (s s' : Lifter) (c callee : ValueId) (args : List Operand)
    (keywords : List Keyword) : Prop extends s.Aside s' where
  worksIn : Graph.WorksIn s.current s.graph s'.graph
  /-- One value is new besides phis. -/
  body_eq : (s'.graph.block s'.current).body = (s.graph.block s.current).body.push c
  new : s.graph.definitions.size ≤ c
  definition_eq : s'.graph.definition c =
    ⟨s.line, s.current, some (.call (some (.value callee)) args keywords)⟩
  endless_eq : s'.endless = Stream'.cons (.pushed (some c)) (s.endless.drop (a + 2 * w + 1))
  shows_callee : (s'.graph.block s'.current).Shows (some callee) (s.endless.get (2 * w + a))
  shows_args : List.Forall₂ (s'.graph.block s'.current).Shows args
    ((s.endless.drop (2 * w)).take a).reverse
  isKeyword : List.Forall₂ (Lift.IsKeyword s s') keywords (List.range w).reverse

namespace Lift

open Lifter

variable {s s' : Lifter} {i : Instruction}

/-- The value of a call is pushed once what it takes was popped. -/
theorem called_of_popped {a w : Nat} {s₁ : Lifter} (h : Popped (2 * w + a + 1) s s₁)
    {callee : ValueId} {args : List Operand} {keywords : List Keyword}
    (hcallee : (s₁.graph.block s₁.current).Shows (some callee) (s.endless.get (2 * w + a)))
    (hargs : List.Forall₂ (s₁.graph.block s₁.current).Shows args
      ((s.endless.drop (2 * w)).take a).reverse)
    (hkeywords : List.Forall₂ (IsKeyword s s₁) keywords (List.range w).reverse) :
    ∃ s', pushNew (.call (some (.value callee)) args keywords) s₁ = .ok () s' ∧
      Called a w s s' s₁.graph.definitions.size callee args keywords := by
  have hblock := Graph.block_emit_self h.stocked.lt_size s₁.line
    (.call (some (.value callee)) args keywords)
  have hwork := s₁.graph.worksIn_emit s₁.current s₁.line
    (.call (some (.value callee)) args keywords)
  obtain ⟨s', hok⟩ : ∃ s', pushNew (.call (some (.value callee)) args keywords) s₁ = .ok () s' :=
    ⟨_, rfl⟩
  obtain ⟨haside, hgraph⟩ := pushNew_ok hok
  rw [← hgraph] at hblock hwork
  have hshows : ∀ {v e}, (s₁.graph.block s₁.current).Shows v e →
      (s'.graph.block s'.current).Shows v e := by
    intro v e hv
    rw [haside.current_eq]
    exact hv.mono hwork.phis_mono
  refine ⟨s', hok, h.toAside.trans haside, ?_, ?_, h.worksIn.count_le, ?_, ?_, hshows hcallee, ?_,
    ?_⟩
  · exact h.worksIn.trans (h.current_eq ▸ hwork)
  · rw [haside.current_eq, hblock, h.current_eq, h.body_eq]
  · rw [hgraph, Graph.definition_emit, if_pos rfl, h.line_eq, h.current_eq]
  · rw [endless, haside.current_eq, hblock, Block.endless_of_cons rfl,
      show a + 2 * w + 1 = 2 * w + a + 1 by omega, ← h.endless_eq]
    rfl
  · exact hargs.imp fun v e hv => hshows hv
  · exact hkeywords.imp fun k j hk => ⟨hk.name, hshows hk.value⟩

/-- A call succeeds if its keys are strings, and stops at one that is none. -/
theorem call_cases (h : s.Stocked) (i : Instruction) :
    ((∀ j < keywordCount i.arg, IsString s (2 * j + 1)) ∧ ∃ s' c callee args keywords,
      call i s = .ok () s' ∧
      Called (positionalCount i.arg) (keywordCount i.arg) s s' c callee args keywords) ∨
    ∃ j < keywordCount i.arg, ∃ cause s', keyError? (s.constantAt? (2 * j + 1)) = some cause ∧
      call i s = .error (.error (.step i cause)) s' := by
  rcases popKeywords_cases h i (keywordCount i.arg) [] with
    ⟨hstrings, kws, s₁, hkws, hpopped₁, hkeywords⟩ | ⟨j, hj, cause, s', hcause, hstop⟩
  · obtain ⟨args, s₂, hargs, hpopped₂, hshows⟩ :=
      popArgs_popped hpopped₁.stocked (positionalCount i.arg) []
    obtain ⟨callee, s₃, hpop, hpopped₃, hcallee⟩ := pop_popped hpopped₂.stocked
    have hpopped := (hpopped₁.trans hpopped₂).trans hpopped₃
    have hrest := hpopped₂.trans hpopped₃
    rw [List.append_nil] at hkws hargs
    rw [Stream'.head, (hpopped₁.trans hpopped₂).get_endless, Nat.zero_add] at hcallee
    rw [hpopped₁.endless_eq] at hshows
    obtain ⟨s', hok, hcalled⟩ := called_of_popped hpopped hcallee
      (hshows.imp fun v e hv => hpopped₃.shows hv)
      (hkeywords.imp fun k j hk => ⟨hk.name, hrest.shows hk.value⟩)
    refine .inl ⟨hstrings, s', _, callee, args, kws, ?_, hcalled⟩
    rw [call, bind_of_ok hkws, bind_of_ok hargs, bind_of_ok hpop]
    exact hok
  · exact .inr ⟨j, hj, cause, s', hcause, bind_of_error hstop⟩

/-- What is wrong with a key is an invalid argument, and there is something wrong with what is no
string. -/
theorem keyError?_eq_some {c : Option Constant} {cause : StepError} (h : keyError? c = some cause)
    (i : Instruction) : (∀ name, c ≠ some (.str name)) ∧
      cause.message i = invalidArgumentMessage i cause.reason := by
  cases c with
  | none =>
    cases h
    exact ⟨by rintro name ⟨⟩, rfl⟩
  | some x =>
    cases x with
    | str name => cases h
    | _ =>
      cases h
      exact ⟨by rintro name ⟨⟩, rfl⟩

/-- A call succeeds if and only if each of its keys is a string constant.  It takes just its
keywords, its arguments and the callee, leaves what is below, and has its value on top.  If a key is
no string it is an invalid argument of the instruction. -/
theorem call_exact (h : s.Stocked) (i : Instruction) {a w : Nat}
    (ha : a = (BitVec.ofInt 64 i.arg &&& 0xff#64).toNat)
    (hw : w = ((BitVec.ofInt 64 i.arg).sshiftRight 8 &&& 0xff#64).toNat) :
    ((∃ s', call i s = .ok () s') ↔ ∀ j < w, IsString s (2 * j + 1)) ∧
    (∀ s', call i s = .ok () s' →
      ∃ c callee args keywords, Called a w s s' c callee args keywords) ∧
    ((∃ j < w, ¬ IsString s (2 * j + 1)) → ∃ cause s',
      call i s = .error (.error (.step i cause)) s' ∧
      cause.message i = invalidArgumentMessage i cause.reason) := by
  rw [← positionalCount_eq] at ha
  rw [← keywordCount_eq] at hw
  subst ha hw
  rcases call_cases h i with ⟨hstrings, s', c, callee, args, keywords, hok, hcalled⟩ |
    ⟨j, hj, cause, s', hcause, hstop⟩
  · refine ⟨⟨fun _ => hstrings, fun _ => ⟨s', hok⟩⟩, ?_, ?_⟩
    · intro s'' hok'
      cases hok.symm.trans hok'
      exact ⟨c, callee, args, keywords, hcalled⟩
    · rintro ⟨j, hj, hno⟩
      exact absurd (hstrings j hj) hno
  · obtain ⟨hno, hmessage⟩ := keyError?_eq_some hcause i
    refine ⟨⟨?_, ?_⟩, ?_, fun _ => ⟨cause, s', hstop, hmessage⟩⟩
    · rintro ⟨s'', hok⟩
      cases hok.symm.trans hstop
    · intro hstrings
      obtain ⟨name, hname⟩ := hstrings j hj
      exact absurd hname (hno name)
    · intro s'' hok
      cases hok.symm.trans hstop

/-- A block with a key and its value on its stack. -/
def shallowGraph : Graph :=
  ((Graph.empty.ensure 0).2.emit 0 1 (.const (.str [0x6b]))).emit 0 1 (.load "x")

/-- The state in which that block is walked. -/
def shallow : Lifter := { (default : Lifter) with graph := shallowGraph, line := 1 }

theorem stocked_shallow : shallow.Stocked where
  lt_size := by decide
  stack := by decide
  slotted := by
    have hbuilt : shallowGraph.Built :=
      .push (.define (.push (.define (.ensure .empty 0) (by decide) _ _) (by decide) _)
        (by decide) _ _) (by decide) _
    exact hbuilt.regular.slotted
  old := by
    intro u hu
    have hstack : (shallow.graph.block shallow.current).stack = [some 1, some 0] := by decide
    rw [hstack] at hu
    simp only [List.mem_cons, Option.some.injEq, List.not_mem_nil, or_false] at hu
    rcases hu with rfl | rfl
    · decide
    · decide

/-- A call with one argument and one keyword, whose count is that of the low bits of a negative
number.  The argument and the callee are entry values. -/
theorem call_exact_shallow : shallow.Stocked ∧
    1 = (BitVec.ofInt 64 (-65279) &&& 0xff#64).toNat ∧
    1 = ((BitVec.ofInt 64 (-65279)).sshiftRight 8 &&& 0xff#64).toNat ∧
    ∃ s' c callee args keywords, call ⟨6, ⟨131⟩, -65279, 1, 9⟩ shallow = .ok () s' ∧
      Called 1 1 shallow s' c callee args keywords := by
  obtain ⟨hiff, hcalled, -⟩ :=
    call_exact (a := 1) (w := 1) stocked_shallow ⟨6, ⟨131⟩, -65279, 1, 9⟩ (by decide) (by decide)
  obtain ⟨s', hok⟩ := hiff.2 fun j hj => by
    obtain rfl : j = 0 := by omega
    exact ⟨[0x6b], by decide⟩
  obtain ⟨c, callee, args, keywords, hc⟩ := hcalled s' hok
  exact ⟨stocked_shallow, by decide, by decide, s', c, callee, args, keywords, hok, hc⟩

end Lift

end StackLift
