/-
# The flow of control between instructions

Where control goes from an instruction, which offsets it reaches from the beginning, and the
straight runs in which instructions follow each other.

* `Code.Reaches` : the offsets that are reached, `Code.ReachesAround` without a certain instruction;
* `Code.runFrom` : the run of instructions from an offset on;
* `Code.Starts` : the offsets at which a run can begin;
* `Code.Sound.start_eq_of_mem_runFrom` : no instruction stands in two runs.
-/
import StackLift.Lifting.Effect
import StackLift.Proofs.Layout

namespace StackLift

/-! ## Successors of an instruction -/

/-- Where control goes after an instruction. -/
inductive Flow
  /-- Nowhere. -/
  | ends
  /-- To the target. -/
  | jumps
  /-- To the target or to the next instruction. -/
  | forks
  /-- To the next instruction. -/
  | goesOn
  deriving DecidableEq, Repr

/-- Where control goes after an opcode. -/
def Opcode.flow (op : Opcode) : Flow :=
  match op.number.toNat with
  -- RETURN_VALUE
  | 83 => .ends
  -- JUMP_FORWARD and JUMP_ABSOLUTE
  | 110 | 113 => .jumps
  -- FOR_ITER and the conditional jumps
  | 93 | 111 | 112 | 114 | 115 | 148 | 149 => .forks
  | _ => .goesOn

/-- Where control goes after an effect. -/
def Effect.flow : Effect → Flow
  | .ret => .ends
  | .jump => .jumps
  | .forLoop | .branch _ _ => .forks
  | _ => .goesOn

/-- The effect of an opcode agrees with its flow. -/
theorem Opcode.flow_eq_of_effect? {op : Opcode} {e : Effect} (h : op.effect? = some e) :
    op.flow = e.flow := by
  unfold Opcode.effect? at h
  split at h <;> cases h <;> simp [Opcode.flow, Effect.flow, *]

/-- An opcode that may go to its target is a jump. -/
theorem Opcode.isJump_of_flow {op : Opcode} (h : op.flow = .jumps ∨ op.flow = .forks) :
    op.isJump = true := by
  have key : ∀ n ∈ [110, 113, 93, 111, 112, 114, 115, 148, 149],
      (⟨UInt8.ofNat n⟩ : Opcode).isJump = true := by decide
  have hnumber : op.number.toNat ∈ [110, 113, 93, 111, 112, 114, 115, 148, 149] := by
    unfold Opcode.flow at h
    split at h <;> simp_all
  simpa using key _ hnumber

/-- The offsets to which control may go after an instruction. -/
def Instruction.successors (i : Instruction) : List Int :=
  match i.op.flow with
  | .ends => []
  | .jumps => [i.target]
  | .forks => [i.target, i.next]
  | .goesOn => [i.next]

namespace Code

/-- Whether control reaches an offset from the beginning. -/
inductive Reaches (c : Code) : Int → Prop
  | entry : Reaches c 0
  | step {o o' : Int} {i : Instruction} (h : Reaches c o) (hi : c.at? o = some i)
      (ho : o' ∈ i.successors) : Reaches c o'

/-- Whether control reaches an offset from the beginning without a step from the instruction at the
offset `avoid`. -/
inductive ReachesAround (c : Code) (avoid : Int) : Int → Prop
  | entry : ReachesAround c avoid 0
  | step {o o' : Int} {i : Instruction} (h : ReachesAround c avoid o) (hne : o ≠ avoid)
      (hi : c.at? o = some i) (ho : o' ∈ i.successors) : ReachesAround c avoid o'

/-! ## Straight runs -/

/-- The instructions at the beginning of a list up to the first from which control does not just
go on, or up to the instruction before a place where a run has to stop. -/
def straight (stops : Int → Bool) : List Instruction → List Instruction
  | [] => []
  | i :: is => if i.op.flow = .goesOn ∧ stops i.next = false then i :: straight stops is else [i]

/-- The run from an offset on. -/
def runFrom (c : Code) (stops : Int → Bool) (o : Int) : List Instruction :=
  straight stops (c.instructions.dropWhile (·.offset != o))

/-- A run is a part of its list. -/
theorem straight_sublist (stops : Int → Bool) (is : List Instruction) :
    (straight stops is).Sublist is := by
  induction is with
  | nil => exact List.Sublist.refl _
  | cons i is ih =>
    rw [straight]
    split
    · exact ih.cons_cons i
    · exact (List.nil_sublist is).cons_cons i

/-- A run is a part of the code. -/
theorem runFrom_sublist (c : Code) (stops : Int → Bool) (o : Int) :
    (c.runFrom stops o).Sublist c.instructions :=
  (straight_sublist _ _).trans (List.dropWhile_sublist _)

theorem mem_of_mem_runFrom {c : Code} {stops : Int → Bool} {o : Int} {i : Instruction}
    (hi : i ∈ c.runFrom stops o) : i ∈ c.instructions := (c.runFrom_sublist stops o).subset hi

/-- An instruction of a run stands at its beginning, or behind another one of the run from which
control goes on. -/
theorem straight_behind {stops : Int → Bool} {is : List Instruction} {o : Int} (h : LaidOut o is)
    {i : Instruction} (hi : i ∈ straight stops is) :
    i.offset = o ∨ ∃ j ∈ straight stops is, j.op.flow = .goesOn ∧ stops j.next = false ∧
      j.next = i.offset := by
  induction is generalizing o with
  | nil => cases hi
  | cons k ks ih =>
    obtain ⟨ho, -, hrest⟩ := h
    rw [straight] at hi ⊢
    split at hi
    · rename_i hk
      rw [if_pos hk]
      rcases List.mem_cons.1 hi with rfl | hi
      · exact .inl ho
      · refine .inr ?_
        rcases ih hrest hi with heq | ⟨j, hj, hflow, hstop, hnext⟩
        · exact ⟨k, List.mem_cons_self, hk.1, hk.2, heq.symm⟩
        · exact ⟨j, List.mem_cons_of_mem _ hj, hflow, hstop, hnext⟩
    · rw [List.mem_singleton] at hi
      exact .inl (hi ▸ ho)

/-- An instruction of a run is its last one, or is followed by another one of the run. -/
theorem straight_before {stops : Int → Bool} {is : List Instruction} {o : Int} (h : LaidOut o is)
    {i : Instruction} (hi : i ∈ straight stops is) :
    (straight stops is).getLast? = some i ∨
      i.op.flow = .goesOn ∧ ∃ j ∈ straight stops is, j.offset = i.next := by
  induction is generalizing o with
  | nil => cases hi
  | cons k ks ih =>
    obtain ⟨-, -, hrest⟩ := h
    rw [straight] at hi ⊢
    split at hi
    · rename_i hk
      rw [if_pos hk]
      rcases List.mem_cons.1 hi with rfl | hi
      · -- the run goes on behind the instruction if the list does
        cases ks with
        | nil => exact .inl rfl
        | cons j js =>
          refine .inr ⟨hk.1, j, List.mem_cons_of_mem _ ?_, hrest.1⟩
          rw [straight]
          split <;> exact List.mem_cons_self
      · rcases ih hrest hi with hlast | ⟨hflow, j, hj, hnext⟩
        · left
          rw [List.getLast?_cons, hlast, Option.getD_some]
        · exact .inr ⟨hflow, j, List.mem_cons_of_mem _ hj, hnext⟩
    · rename_i hk
      rw [if_neg hk]
      rw [List.mem_singleton] at hi
      exact .inl (hi ▸ rfl)

/-- Runs agree if they stop at the same instructions. -/
theorem straight_congr {stops stops' : Int → Bool} {is : List Instruction}
    (h : ∀ i ∈ straight stops is, i.op.flow = .goesOn → stops i.next = stops' i.next) :
    straight stops is = straight stops' is := by
  induction is with
  | nil => rfl
  | cons i is ih =>
    rw [straight, straight]
    by_cases hflow : i.op.flow = .goesOn
    · have hi : stops i.next = stops' i.next := by
        refine h i ?_ hflow
        rw [straight]
        split <;> exact List.mem_cons_self
      rw [← hi]
      by_cases hstop : stops i.next = false
      · rw [if_pos ⟨hflow, hstop⟩, if_pos ⟨hflow, hstop⟩, ih]
        intro j hj
        refine h j ?_
        rw [straight, if_pos ⟨hflow, hstop⟩]
        exact List.mem_cons_of_mem _ hj
      · rw [if_neg (hstop ·.2), if_neg (hstop ·.2)]
    · rw [if_neg (hflow ·.1), if_neg (hflow ·.1)]

/-- The offsets at which a run can begin: the entry, the labels, and the offsets behind the forks
that are reached. -/
def Starts (c : Code) (o : Int) : Prop :=
  o = 0 ∨ o ∈ c.labels ∨
    ∃ i ∈ c.instructions, c.Reaches i.offset ∧ i.op.flow = .forks ∧ i.next = o

namespace Sound

variable {c : Code} (h : c.Sound)
include h

/-- Control goes to labels only, but for the next instruction. -/
theorem target_mem_labels {i : Instruction} (hi : i ∈ c.instructions)
    (hflow : i.op.flow = .jumps ∨ i.op.flow = .forks) : i.target ∈ c.labels :=
  (h.mem_labels_iff _).2 ⟨i, hi, Opcode.isJump_of_flow hflow, rfl⟩

/-- Where control does not just go on, a run begins. -/
theorem starts_of_mem_successors {i : Instruction} (hi : i ∈ c.instructions)
    (hreach : c.Reaches i.offset) (hflow : i.op.flow ≠ .goesOn) {o : Int}
    (ho : o ∈ i.successors) : c.Starts o := by
  unfold Instruction.successors at ho
  split at ho
  · cases ho
  · rename_i hjump
    rw [List.mem_singleton] at ho
    exact .inr (.inl (ho ▸ h.target_mem_labels hi (.inl hjump)))
  · rename_i hfork
    rcases List.mem_cons.1 ho with rfl | ho
    · exact .inr (.inl (h.target_mem_labels hi (.inr hfork)))
    · rw [List.mem_singleton] at ho
      exact .inr (.inr ⟨i, hi, hreach, hfork, ho.symm⟩)
  · rename_i hgoes
    exact absurd hgoes hflow

/-- Behind an instruction from which control goes on, a run begins only at a label. -/
theorem starts_next_iff {i : Instruction} (hi : i ∈ c.instructions)
    (hflow : i.op.flow = .goesOn) : c.Starts i.next ↔ c.isLabel i.next = true := by
  rw [h.isLabel_iff]
  constructor
  · rintro (hzero | hlabel | ⟨j, hj, -, hfork, hnext⟩)
    · have := h.next_inRange hi
      omega
    · exact hlabel
    · have := h.laidOut.eq_of_next_eq hj hi hnext
      subst this
      rw [hflow] at hfork
      cases hfork
  · exact fun hlabel => .inr (.inl hlabel)

/-- Runs begin at offsets of 64 bits. -/
theorem inRange_of_starts {o : Int} (ho : c.Starts o) : 0 ≤ o ∧ o < 9223372036854775808 := by
  rcases ho with rfl | hlabel | ⟨i, hi, -, -, rfl⟩
  · decide
  · obtain ⟨i, hi, rfl⟩ := h.label_at o hlabel
    exact h.offset_inRange hi
  · have := h.next_inRange hi
    omega

/-- A run begins with the instruction at its offset, and goes on behind it or ends. -/
theorem runFrom_eq {o : Int} {i : Instruction} (hi : c.at? o = some i) (stops : Int → Bool) :
    c.runFrom stops o =
      if i.op.flow = .goesOn ∧ stops i.next = false then i :: c.runFrom stops i.next else [i] := by
  obtain ⟨hmem, rfl⟩ := (h.at?_eq_some_iff o i).1 hi
  rw [runFrom, h.laidOut.dropWhile_eq_cons hmem, straight, runFrom]

/-- An instruction of a run stands at its beginning, or behind another one of the run from which
control goes on. -/
theorem runFrom_behind {stops : Int → Bool} {o : Int} {i : Instruction}
    (hi : i ∈ c.runFrom stops o) :
    i.offset = o ∨ ∃ j ∈ c.runFrom stops o, j.op.flow = .goesOn ∧ stops j.next = false ∧
      j.next = i.offset :=
  straight_behind (h.laidOut.dropWhile o) hi

/-- A run that is not empty begins at its offset. -/
theorem exists_start_of_mem_runFrom {stops : Int → Bool} {o : Int} {i : Instruction}
    (hi : i ∈ c.runFrom stops o) : ∃ j ∈ c.runFrom stops o, j.offset = o := by
  have hout := h.laidOut.dropWhile o
  unfold runFrom at hi ⊢
  cases hlist : c.instructions.dropWhile (·.offset != o) with
  | nil =>
    rw [hlist] at hi
    cases hi
  | cons j js =>
    rw [hlist] at hout
    refine ⟨j, ?_, hout.1⟩
    rw [straight]
    split <;> exact List.mem_cons_self

/-- An instruction of a run is its last one, or is followed by another one of the run. -/
theorem runFrom_before {stops : Int → Bool} {o : Int} {i : Instruction}
    (hi : i ∈ c.runFrom stops o) :
    (c.runFrom stops o).getLast? = some i ∨
      i.op.flow = .goesOn ∧ ∃ j ∈ c.runFrom stops o, j.offset = i.next :=
  straight_before (h.laidOut.dropWhile o) hi

/-- The instructions of a run stand in ascending order of offset. -/
theorem pairwise_runFrom (stops : Int → Bool) (o : Int) :
    (c.runFrom stops o).Pairwise fun i j => i.offset < j.offset := by
  have hall : c.instructions.Pairwise fun i j => i.offset < j.offset := by
    refine h.laidOut.pairwise.imp_of_mem fun {i j} hi _ hle => ?_
    have := h.laidOut.offset_lt_next hi
    omega
  exact hall.sublist (c.runFrom_sublist stops o)

/-- A run does not go back behind its beginning. -/
theorem le_offset_of_mem_runFrom {stops : Int → Bool} {o : Int} {i : Instruction}
    (hi : i ∈ c.runFrom stops o) : o ≤ i.offset :=
  (h.laidOut.dropWhile o).le_offset ((straight_sublist _ _).subset hi)

/-- What comes behind an instruction of a run comes behind the beginning of the run. -/
theorem lt_next_of_mem_runFrom {stops : Int → Bool} {o : Int} {i : Instruction}
    (hi : i ∈ c.runFrom stops o) : o < i.next :=
  Int.lt_of_le_of_lt (h.le_offset_of_mem_runFrom hi)
    (h.laidOut.offset_lt_next (mem_of_mem_runFrom hi))

/-- Control reaches the whole run from an offset that it reaches. -/
theorem reaches_of_mem_runFrom {stops : Int → Bool} {o : Int} (ho : c.Reaches o)
    {i : Instruction} (hi : i ∈ c.runFrom stops o) : c.Reaches i.offset := by
  -- by the offset of the instruction, as the one before it in the run has a smaller one
  induction hn : i.offset.toNat using Nat.strongRecOn generalizing i with
  | _ n ih =>
    rcases h.runFrom_behind hi with heq | ⟨j, hj, hflow, -, hnext⟩
    · rwa [heq]
    · have hmem := mem_of_mem_runFrom hj
      have hlt := h.laidOut.offset_lt_next hmem
      have hpos := h.offset_inRange hmem
      refine .step (ih _ ?_ hj rfl) (h.at?_offset hmem) ?_
      · omega
      · rw [Instruction.successors, hflow, hnext]
        exact List.mem_singleton_self _

/-- The same around an instruction that is not in the run. -/
theorem reachesAround_of_mem_runFrom {stops : Int → Bool} {o avoid : Int}
    (ho : c.ReachesAround avoid o) (havoid : ∀ j ∈ c.runFrom stops o, j.offset ≠ avoid)
    {i : Instruction} (hi : i ∈ c.runFrom stops o) : c.ReachesAround avoid i.offset := by
  induction hn : i.offset.toNat using Nat.strongRecOn generalizing i with
  | _ n ih =>
    rcases h.runFrom_behind hi with heq | ⟨j, hj, hflow, -, hnext⟩
    · rwa [heq]
    · have hmem := mem_of_mem_runFrom hj
      have hlt := h.laidOut.offset_lt_next hmem
      have hpos := h.offset_inRange hmem
      refine .step (ih _ ?_ hj rfl) (havoid j hj) (h.at?_offset hmem) ?_
      · omega
      · rw [Instruction.successors, hflow, hnext]
        exact List.mem_singleton_self _

/-- No instruction stands in two runs that end at labels. -/
theorem start_eq_of_mem_runFrom {o o' : Int} (ho : c.Starts o) (ho' : c.Starts o')
    {i : Instruction} (hi : i ∈ c.runFrom c.isLabel o) (hi' : i ∈ c.runFrom c.isLabel o') :
    o = o' := by
  -- go back in both runs at once, until one of them begins
  induction hn : i.offset.toNat using Nat.strongRecOn generalizing i with
  | _ n ih =>
    have not_start : ∀ {p : Int} {j : Instruction}, j ∈ c.runFrom c.isLabel p →
        j.op.flow = .goesOn → c.isLabel j.next = false → ¬ c.Starts j.next := by
      intro p j hj hflow hstop hstart
      rw [h.starts_next_iff (mem_of_mem_runFrom hj) hflow, hstop] at hstart
      cases hstart
    rcases h.runFrom_behind hi with heq | ⟨j, hj, hflow, hstop, hnext⟩
    · rcases h.runFrom_behind hi' with heq' | ⟨j', hj', hflow', hstop', hnext'⟩
      · exact heq.symm.trans heq'
      · rw [← heq, ← hnext'] at ho
        exact absurd ho (not_start hj' hflow' hstop')
    · rcases h.runFrom_behind hi' with heq' | ⟨j', hj', hflow', hstop', hnext'⟩
      · rw [← heq', ← hnext] at ho'
        exact absurd ho' (not_start hj hflow hstop)
      · have hmem := mem_of_mem_runFrom hj
        have hmem' := mem_of_mem_runFrom hj'
        have hsame := h.laidOut.eq_of_next_eq hmem hmem' (hnext.trans hnext'.symm)
        subst hsame
        have hlt := h.laidOut.offset_lt_next hmem
        have hpos := h.offset_inRange hmem
        exact ih _ (by omega) hj hj' rfl

end Sound

end Code

end StackLift
