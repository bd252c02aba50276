/-
# The listing of a function

The listing of a function has a line for each instruction, and behind an argument stands what it
selects from a table of the function.

* `Code.argumentNote_eq`: a negative argument of an opcode with a table breaks the listing; any
  other argument is annotated if it selects an entry, and left alone if it does not;
* `Lift.refusesIndex_iff`: the lifter refuses exactly the indices that select no entry;
* `Code.disassemble_exact`: when there is a listing, and what stands in it.
-/
import StackLift.Code.Disassembly
import StackLift.Proofs.Flaws
import StackLift.Proofs.Literals

namespace StackLift

/-! ## Strings on one line -/

namespace Text

/-- The byte that ends a line. -/
def lineFeed : UInt8 := 10

/-- Whether a string has only characters of one byte, and none that ends a line. -/
def IsInline (s : String) : Prop := ∀ c ∈ s.toList, c.toNat < 128 ∧ c ≠ '\n'

instance : DecidablePred IsInline := fun s =>
  decidable_of_iff (s.toList.all fun c => c.toNat < 128 ∧ c ≠ '\n') <| by simp [IsInline]

/-- A text without line feeds has none in its bytes. -/
theorem IsInline.lineFeed_notMem {s : String} (h : IsInline s) : lineFeed ∉ ofString s := by
  intro hmem
  obtain ⟨c, hc, hbyte⟩ := List.mem_flatMap.1 hmem
  obtain ⟨hlt, hne⟩ := h c hc
  rw [utf8EncodeChar_of_lt hlt, List.mem_singleton] at hbyte
  have htoNat : c.toNat = '\n'.toNat := by
    rw [← toNat_ofNat (Nat.lt_trans hlt (by decide)), ← hbyte]
    rfl
  exact hne (Char.ext (UInt32.toNat_inj.1 htoNat))

/-- Two texts without line feeds have none together. -/
theorem IsInline.append {s s' : String} (h : IsInline s) (h' : IsInline s') :
    IsInline (s ++ s') := by
  intro c hc
  rw [String.toList_append] at hc
  exact (List.mem_append.1 hc).elim (h c) (h' c)

theorem isInline_spaces (n : Nat) : IsInline (String.ofList (List.replicate n ' ')) := by
  intro c hc
  rw [String.toList_ofList] at hc
  rw [List.eq_of_mem_replicate hc]
  decide

/-- Spaces before a text add no line feed. -/
theorem IsInline.padLeft {s : String} (h : IsInline s) (width : Nat) :
    IsInline (padLeft width s) := (isInline_spaces _).append h

/-- Spaces after a text add no line feed. -/
theorem IsInline.padRight {s : String} (h : IsInline s) (width : Nat) :
    IsInline (padRight width s) := h.append (isInline_spaces _)

/-- A number is written without line feeds. -/
theorem isInline_toString (n : Int) : IsInline (toString n) := by
  obtain ⟨negative, m, -, htext⟩ := Number.toList_toString n
  intro c hc
  rw [htext] at hc
  rcases List.mem_append.1 hc with hc | hc
  · cases negative with
    | false => cases hc
    | true =>
      cases List.mem_singleton.1 hc
      decide
  · have hdigit := Number.isDigit_of_mem_toDigits hc
    have hle : c.toNat ≤ '9'.toNat := (Char.isDigit_iff_toNat.1 hdigit).2
    refine ⟨Nat.lt_of_le_of_lt hle (by decide), ?_⟩
    rintro rfl
    exact absurd hdigit (by decide)

end Text

/-- The names of opcodes have no line feeds. -/
theorem Opcode.isInline_name (op : Opcode) : Text.IsInline op.name := by
  unfold name
  split
  · next e he =>
    have htable : ∀ e ∈ table, Text.IsInline e.name := by decide +kernel
    exact htable e (List.mem_of_find?_eq_some he)
  · exact .append (.append (by decide) (Text.isInline_toString op.number.toNat)) (by decide)

/-- A jump has an argument. -/
theorem Opcode.hasArg_of_isJump (op : Opcode) (h : op.isJump = true) : op.hasArg = true := by
  have htable : ∀ e ∈ table, (e.jump != .none) = true → 90 ≤ e.number := by decide
  unfold isJump jump at h
  split at h
  · next e he =>
    have hnumber : e.number = op.number := by simpa using List.find?_some he
    exact decide_eq_true (hnumber ▸ htable e (List.mem_of_find?_eq_some he) h)
  · cases h

/-! ## Annotations -/

namespace Code

/-- The texts that the argument of an opcode selects from. -/
def table? (c : Code) (op : Opcode) : Option (List Text) :=
  if op = .loadConst then some (c.consts.map Constant.text)
  else if op = .loadFast ∨ op = .storeFast then some (c.varnames.map Text.ofString)
  else if op = .loadGlobal then some (c.names.map Text.ofString)
  else if op = .compareOp then some (Opcode.comparisons.map Text.ofString)
  else none

/-- The entry that the argument of an instruction selects from the table of its opcode. -/
def selected? (c : Code) (i : Instruction) : Option Text :=
  (c.table? i.op).bind fun table => Lift.pick? table i.arg

/-- What stands behind the argument of an instruction: the target of a jump, or the entry that the
argument selects, if there is one. -/
def remark (c : Code) (i : Instruction) : Text :=
  if i.op.isJump then note ("to " ++ toString i.target) else ((c.selected? i).map note).getD []

/-- An argument picks the entry at the same place of a table that was changed entry by entry. -/
theorem pick?_map {α β : Type} (f : α → β) (table : List α) (k : Int) :
    Lift.pick? (table.map f) k = (Lift.pick? table k).map f := by
  unfold Lift.pick?
  split
  · rfl
  · exact List.getElem?_map

/-- Only five opcodes have a table to look their argument up in. -/
theorem table?_eq_none (c : Code) {op : Opcode}
    (h : ∀ op' ∈ [Opcode.loadConst, .loadFast, .storeFast, .loadGlobal, .compareOp], op ≠ op') :
    c.table? op = none := by
  simp only [List.forall_mem_cons] at h
  rw [table?, if_neg h.1, if_neg (not_or.2 ⟨h.2.1, h.2.2.1⟩), if_neg h.2.2.2.1,
    if_neg h.2.2.2.2.1]

/-- The argument of a jump is not looked up. -/
theorem table?_of_isJump (c : Code) {op : Opcode} (h : op.isJump = true) : c.table? op = none := by
  refine c.table?_eq_none fun op' hop' => ?_
  rintro rfl
  revert h
  revert op
  decide

/-- Without an argument there is nothing to look up. -/
theorem table?_of_not_hasArg (c : Code) {op : Opcode} (h : op.hasArg = false) :
    c.table? op = none := by
  refine c.table?_eq_none fun op' hop' => ?_
  rintro rfl
  revert h
  revert op
  decide

/-- Reading a table at a negative argument is out of range, and otherwise notes the selected entry.
-/
theorem bind_entry {α : Type} (f : α → Text) (table : List α) (k : Int)
    {noted : Option α → Except Fault Text} (hsome : ∀ a, noted (some a) = .ok (note (f a)))
    (hnone : noted none = .ok []) :
    entry table k >>= noted = if k < 0 then .error .outOfRange
      else .ok (((Lift.pick? (table.map f) k).map note).getD []) := by
  rw [pick?_map, Lift.pick?, entry]
  split
  · rfl
  · cases h : table[k.toNat]? with
    | none => exact hnone
    | some a => exact hsome a

/-- A negative argument of an opcode with a table is out of range.  Any other argument is
annotated. -/
theorem argumentNote_eq (c : Code) (i : Instruction) :
    c.argumentNote i = if (c.table? i.op).isSome = true ∧ i.arg < 0 then .error .outOfRange
      else .ok (c.remark i) := by
  unfold argumentNote remark selected?
  by_cases hjump : i.op.isJump = true
  · rw [if_pos hjump, if_pos hjump, table?_of_isJump c hjump, if_neg (by simp)]
  rw [if_neg hjump, if_neg hjump, table?]
  split
  · simpa using bind_entry Constant.text c.consts i.arg (fun _ => rfl) rfl
  split
  · simpa using bind_entry Text.ofString c.varnames i.arg (fun _ => rfl) rfl
  split
  · simpa using bind_entry Text.ofString c.names i.arg (fun _ => rfl) rfl
  split
  · simpa using bind_entry Text.ofString Opcode.comparisons i.arg (fun _ => rfl) rfl
  · rfl

/-- Nothing stands behind an instruction without an argument. -/
theorem remark_of_not_hasArg (c : Code) {i : Instruction} (h : i.op.hasArg = false) :
    c.remark i = [] := by
  have hjump : i.op.isJump ≠ true := by
    intro hjump
    rw [i.op.hasArg_of_isJump hjump] at h
    cases h
  rw [remark, if_neg hjump, selected?, c.table?_of_not_hasArg h]
  rfl

end Code

/-! ## Lines of instructions -/

/-- What a listing says about an instruction by itself: where it stands, its name and its
argument. -/
def Instruction.columns (i : Instruction) : String :=
  Text.padLeft 4 (toString i.offset) ++ " " ++ Text.padRight 22 i.op.name ++
    if i.op.hasArg then " " ++ toString i.arg else ""

/-- The columns of an instruction have no line feeds. -/
theorem Instruction.isInline_columns (i : Instruction) : Text.IsInline i.columns := by
  refine .append (.append (.append ((Text.isInline_toString _).padLeft 4) (by decide))
    (i.op.isInline_name.padRight 22)) ?_
  split
  · exact .append (by decide) (Text.isInline_toString _)
  · decide

namespace Code

/-- Whether a text has a line for each of some instructions: a margin, the columns of the
instruction and what stands behind its argument. -/
inductive Lists (c : Code) : List Instruction → Text → Prop
  | nil : Lists c [] []
  | cons {i : Instruction} {is : List Instruction} {margin rest : Text}
      (hline : Text.lineFeed ∉ margin ++ Text.ofString i.columns) (h : Lists c is rest) :
      Lists c (i :: is)
        (margin ++ Text.ofString i.columns ++ c.remark i ++ [Text.lineFeed] ++ rest)

/-- There is one line for each instruction, except that a remark may hold line feeds. -/
theorem Lists.count_lineFeed {c : Code} {is : List Instruction} {t : Text} (h : c.Lists is t)
    (hnotes : ∀ i ∈ is, Text.lineFeed ∉ c.remark i) :
    t.count Text.lineFeed = is.length := by
  induction h with
  | nil => rfl
  | @cons i is margin rest hline h ih =>
    have hnote := hnotes i List.mem_cons_self
    have ih := ih fun j hj => hnotes j (List.mem_cons_of_mem i hj)
    rw [List.count_append, List.count_append, List.count_append, List.count_eq_zero.2 hline,
      List.count_eq_zero.2 hnote, ih, List.length_cons]
    exact Nat.add_comm _ _

/-- The text before the columns of an instruction: the source line, if it changes, and the mark of a
jump target. -/
def margin (c : Code) (previous : Int) (i : Instruction) : String :=
  (if i.line = previous then "     " else Text.padLeft 4 (toString i.line) ++ " ") ++
    (if c.isLabel i.offset then ">>" else "  ") ++ " "

/-- The margin of an instruction has no line feeds. -/
theorem isInline_margin (c : Code) (previous : Int) (i : Instruction) :
    Text.IsInline (c.margin previous i) := by
  refine .append (.append ?_ ?_) (by decide)
  · split
    · decide
    · exact ((Text.isInline_toString _).padLeft 4).append (by decide)
  · split <;> decide

/-- A line is written unless a negative argument would have to be looked up. -/
theorem instructionLine_eq (c : Code) (previous : Int) (i : Instruction) :
    c.instructionLine previous i =
      if (c.table? i.op).isSome = true ∧ i.arg < 0 then .error .outOfRange
      else .ok (Text.ofString (c.margin previous i) ++ Text.ofString i.columns ++ c.remark i ++
        [Text.lineFeed]) := by
  simp only [instructionLine, margin, Instruction.columns, Text.ofString_append]
  by_cases harg : i.op.hasArg = true
  · rw [if_pos harg, if_pos harg, argumentNote_eq]
    split
    · rfl
    · simp only [bind, Except.bind, List.append_assoc, Text.ofString_append]
      rfl
  · have hnot := Bool.eq_false_iff.2 harg
    have hneg : ¬ ((c.table? i.op).isSome = true ∧ i.arg < 0) := by
      rw [c.table?_of_not_hasArg hnot]
      exact fun h => Bool.false_ne_true h.1
    rw [if_neg harg, if_neg harg, if_neg hneg, remark_of_not_hasArg c hnot]
    simp only [List.append_assoc]
    rfl

/-- All lines are written, or one of them cannot be. -/
theorem disassembleFrom_cases (c : Code) (previous : Int) (is : List Instruction) :
    ((∃ i ∈ is, (c.table? i.op).isSome = true ∧ i.arg < 0) ∧
        c.disassembleFrom previous is = .error .outOfRange) ∨
      (∀ i ∈ is, ¬ ((c.table? i.op).isSome = true ∧ i.arg < 0)) ∧
        ∃ t, c.disassembleFrom previous is = .ok t ∧ c.Lists is t := by
  induction is generalizing previous with
  | nil => exact .inr ⟨nofun, [], rfl, .nil⟩
  | cons i is ih =>
    rw [disassembleFrom, instructionLine_eq]
    by_cases hneg : (c.table? i.op).isSome = true ∧ i.arg < 0
    · rw [if_pos hneg]
      exact .inl ⟨⟨i, List.mem_cons_self, hneg⟩, rfl⟩
    rw [if_neg hneg]
    rcases ih i.line with ⟨⟨j, hj, hneg'⟩, heq⟩ | ⟨hall, t, heq, hlists⟩
    · rw [heq]
      exact .inl ⟨⟨j, List.mem_cons_of_mem i hj, hneg'⟩, rfl⟩
    · rw [heq]
      refine .inr ⟨List.forall_mem_cons.2 ⟨hneg, hall⟩, _, rfl, .cons ?_ hlists⟩
      rw [← Text.ofString_append]
      exact ((c.isInline_margin previous i).append i.isInline_columns).lineFeed_notMem

end Code

/-! ## The check of the lifter -/

/-- Whether a lifter refuses to step an instruction because its argument is the index of no
constant, local variable or global. -/
def Lifter.RefusesIndex (s : Lifter) (i : Instruction) : Prop :=
  ∃ cause s', cause ∈ [StepError.constIndex i.arg, .localIndex i.arg, .globalIndex i.arg] ∧
    Lift.step i s = .error (.error (.step i cause)) s'

namespace Lift

/-- Whether a computation never stops at an error of the function. -/
def Blameless {α : Type} (x : Lift α) : Prop := ∀ s e s', x s ≠ .error (.error e) s'

/-- Two computations that never stop at an error of the function, one after the other. -/
theorem Blameless.bind {α β : Type} {x : Lift α} {k : α → Lift β} (hx : Blameless x)
    (hk : ∀ a, Blameless (k a)) : Blameless (x >>= k) := by
  intro s e s' h
  rcases bind_eq_error.1 h with h | ⟨a, s₁, -, h⟩
  · exact hx s e s' h
  · exact hk a s₁ e s' h

/-- A computation that always succeeds stops at no error. -/
theorem blameless_of_ok {α : Type} {x : Lift α} (h : ∀ s, ∃ a s', x s = .ok a s') :
    Blameless x := by
  intro s e s' herror
  obtain ⟨a, s₁, hok⟩ := h s
  rw [hok] at herror
  cases herror

theorem blameless_pushNew (e : Expr) : Blameless (pushNew e) :=
  blameless_of_ok fun _ => ⟨_, _, rfl⟩

/-- A value that is missing is a fault, not an error of the function. -/
theorem blameless_tellUnderflow (v : Operand) : Blameless (tellUnderflow v) := by
  intro s e s' h
  rw [tellUnderflow, get_bind] at h
  cases v with
  | none => cases h
  | some u =>
    dsimp only at h
    cases hphi : (s.graph.definition u).phi? with
    | none =>
      rw [hphi] at h
      cases h
    | some p =>
      rw [hphi] at h
      cases h

theorem blameless_pop : Blameless pop :=
  .bind (blameless_of_ok fun _ => ⟨_, _, rfl⟩) fun _ =>
    .bind (blameless_of_ok fun _ => ⟨_, _, rfl⟩) fun v =>
      .bind (blameless_tellUnderflow v) fun _ => blameless_of_ok fun _ => ⟨_, _, rfl⟩

/-- A local variable that an argument picks. -/
theorem localName_of_some {i : Instruction} {s : Lifter} {name : String}
    (h : pick? s.code.varnames i.arg = some name) : localName i s = .ok name s := by
  rw [localName, get_bind, h]
  rfl

/-- An argument that picks no local variable is refused by its number. -/
theorem localName_of_none {i : Instruction} {s : Lifter}
    (h : pick? s.code.varnames i.arg = none) :
    localName i s = .error (.error (.step i (.localIndex i.arg))) s := by
  rw [localName, get_bind, h]
  rfl

/-- An instruction that loads or stores is refused for its index exactly if the index selects no
entry of the table of its opcode. -/
theorem perform_index_cases {op : Opcode}
    (hop : op ∈ [Opcode.loadConst, .loadFast, .storeFast, .loadGlobal]) (i : Instruction)
    (s : Lifter) :
    ∃ e table, op.effect? = some e ∧ s.code.table? op = some table ∧
      ((∃ t, pick? table i.arg = some t) ∧
          (∀ err s', perform i e s ≠ .error (.error err) s') ∨
        pick? table i.arg = none ∧ ∃ cause s',
          cause ∈ [StepError.constIndex i.arg, .localIndex i.arg, .globalIndex i.arg] ∧
          perform i e s = .error (.error (.step i cause)) s') := by
  simp only [List.mem_cons, List.not_mem_nil, or_false] at hop
  rcases hop with rfl | rfl | rfl | rfl
  · refine ⟨.loadConst, _, rfl, rfl, ?_⟩
    rw [Code.pick?_map, perform, loadConst, get_bind]
    cases pick? s.code.consts i.arg with
    | none => exact .inr ⟨rfl, _, _, by simp, rfl⟩
    | some x => exact .inl ⟨⟨_, rfl⟩, blameless_pushNew _ s⟩
  · refine ⟨.loadLocal, _, rfl, rfl, ?_⟩
    rw [Code.pick?_map, perform, loadLocal]
    cases hname : pick? s.code.varnames i.arg with
    | none => exact .inr ⟨rfl, _, _, by simp, bind_of_error (localName_of_none hname)⟩
    | some name =>
      rw [bind_of_ok (localName_of_some hname)]
      exact .inl ⟨⟨_, rfl⟩, blameless_pushNew _ s⟩
  · refine ⟨.storeLocal, _, rfl, rfl, ?_⟩
    rw [Code.pick?_map, perform, storeLocal]
    cases hname : pick? s.code.varnames i.arg with
    | none => exact .inr ⟨rfl, _, _, by simp, bind_of_error (localName_of_none hname)⟩
    | some name =>
      rw [bind_of_ok (localName_of_some hname)]
      exact .inl ⟨⟨_, rfl⟩, blameless_pop.bind (fun v => blameless_pushNew _) s⟩
  · refine ⟨.loadGlobal, _, rfl, rfl, ?_⟩
    rw [Code.pick?_map, perform, loadGlobal, get_bind]
    cases pick? s.code.names i.arg with
    | none => exact .inr ⟨rfl, _, _, by simp, rfl⟩
    | some x => exact .inl ⟨⟨_, rfl⟩, blameless_pushNew _ s⟩

/-- The lifter refuses the index of an instruction that loads or stores if and only if it selects
nothing. -/
theorem refusesIndex_iff {i : Instruction}
    (hop : i.op ∈ [Opcode.loadConst, .loadFast, .storeFast, .loadGlobal]) (s : Lifter) :
    s.RefusesIndex i ↔ s.code.selected? i = none := by
  obtain ⟨hnone, -⟩ | ⟨e, s₁, he, hbegins, hstep⟩ := step_cases i s
  · obtain ⟨e, -, he, -⟩ := perform_index_cases hop i s
    rw [hnone] at he
    cases he
  obtain ⟨e', table, he', htable, hcases⟩ := perform_index_cases hop i s₁
  rw [hbegins.code_eq] at htable
  cases he.symm.trans he'
  rw [Lifter.RefusesIndex, hstep, Code.selected?, htable, Option.bind_some]
  rcases hcases with ⟨⟨t, ht⟩, hnever⟩ | ⟨hnone, cause, s', hcause, heq⟩
  · rw [ht]
    refine ⟨?_, nofun⟩
    rintro ⟨cause, s', -, heq⟩
    exact absurd heq (hnever _ s')
  · rw [hnone]
    exact ⟨fun _ => rfl, fun _ => ⟨cause, s', hcause, heq⟩⟩

end Lift

/-! ## The listing -/

namespace Code

variable {i : Instruction} {table : List Text}

/-- A remark is made on what the argument picks, and there is none if it picks nothing. -/
theorem remark_of_table? {c : Code} (h : c.table? i.op = some table) :
    c.remark i = ((c.selected? i).map note).getD [] := by
  refine if_neg fun hjump => ?_
  rw [c.table?_of_isJump hjump] at h
  cases h

theorem remark_eq_nil_iff {c : Code} (h : c.table? i.op = some table) :
    c.remark i = [] ↔ c.selected? i = none := by
  rw [remark_of_table? h]
  cases c.selected? i with
  | none => simp
  | some t => simp [note, Text.ofString]

/-- Instructions that load or store have a table. -/
theorem exists_table? (c : Code) {op : Opcode}
    (h : op ∈ [Opcode.loadConst, .loadFast, .storeFast, .loadGlobal]) :
    ∃ table, c.table? op = some table := by
  simp only [List.mem_cons, List.not_mem_nil, or_false] at h
  rcases h with rfl | rfl | rfl | rfl <;> exact ⟨_, rfl⟩

/-- A function has a listing if and only if no argument that selects from a table is negative.  The
listing has one line for each instruction, and what stands behind the argument of one that loads or
stores is the entry that it selects.  Nothing stands there exactly if the lifter refuses the index.
-/
theorem disassemble_exact (c : Code) :
    (c.disassemble = .error .outOfRange ↔
        ∃ i ∈ c.instructions, (c.table? i.op).isSome = true ∧ i.arg < 0) ∧
      ((∀ i ∈ c.instructions, (c.table? i.op).isSome = true → 0 ≤ i.arg) →
        ∃ t, c.disassemble = .ok t ∧ c.Lists c.instructions t ∧
          ((∀ i ∈ c.instructions, Text.lineFeed ∉ c.remark i) →
            t.count Text.lineFeed = c.instructions.length)) ∧
      ∀ i : Instruction, i.op ∈ [Opcode.loadConst, .loadFast, .storeFast, .loadGlobal] →
        ∃ table, c.table? i.op = some table ∧
          (∀ t, Lift.pick? table i.arg = some t → c.remark i = note t) ∧
          (c.remark i ≠ [] ↔ 0 ≤ i.arg ∧ i.arg < table.length) ∧
          ∀ s : Lifter, s.code = c → (c.remark i ≠ [] ↔ ¬ s.RefusesIndex i) := by
  refine ⟨?_, ?_, ?_⟩
  · rcases c.disassembleFrom_cases (-1) c.instructions with ⟨hneg, heq⟩ | ⟨hall, t, heq, -⟩
    · exact ⟨fun _ => hneg, fun _ => heq⟩
    · rw [disassemble, heq]
      refine ⟨nofun, ?_⟩
      rintro ⟨i, hi, hneg⟩
      exact absurd hneg (hall i hi)
  · intro hall
    rcases c.disassembleFrom_cases (-1) c.instructions with
      ⟨⟨i, hi, hneg⟩, -⟩ | ⟨-, t, heq, hlists⟩
    · exact absurd (hall i hi hneg.1) (Int.not_le.2 hneg.2)
    · exact ⟨t, heq, hlists, hlists.count_lineFeed⟩
  · intro i hop
    obtain ⟨table, htable⟩ := c.exists_table? hop
    have hselected : c.selected? i = Lift.pick? table i.arg := by
      rw [selected?, htable, Option.bind_some]
    refine ⟨table, htable, ?_, ?_, ?_⟩
    · intro t ht
      rw [remark_of_table? htable, hselected, ht]
      rfl
    · rw [Ne, remark_eq_nil_iff htable, hselected]
      rcases Lift.pick?_cases table i.arg with ⟨x, hx, hin⟩ | ⟨hnone, hout⟩
      · rw [hx]
        exact ⟨fun _ => hin, nofun⟩
      · rw [hnone]
        exact ⟨fun h => absurd rfl h, fun h => absurd h hout⟩
    · rintro s rfl
      rw [Ne, remark_eq_nil_iff htable, Lift.refusesIndex_iff hop]

/-- A function that selects a constant, a local variable and a constant beyond its table, and in
which the arguments of other instructions are negative. -/
def selecting : Code where
  name := "f"
  signature := ⟨[], 0, "", ""⟩
  consts := [.int 1, .str [10]]
  varnames := ["x"]
  names := []
  instructions := [⟨0, .loadConst, 0, 1, 3⟩, ⟨3, .loadConst, 2, 1, 6⟩, ⟨6, .storeFast, 0, 2, 9⟩,
    ⟨9, ⟨131⟩, -1, 2, 12⟩, ⟨12, ⟨83⟩, -1, 2, 13⟩]
  labels := []

theorem disassemble_exact_selecting :
    make "f" ⟨[], 0, "", ""⟩ [.int 1, .str [10]] ["x"] [] selecting.instructions = .ok selecting ∧
      (∃ t, selecting.disassemble = .ok t ∧ t.count Text.lineFeed = 5) ∧
      selecting.remark ⟨0, .loadConst, 0, 1, 3⟩ = note (Text.ofString "1") ∧
      ∀ s : Lifter, s.code = selecting → s.RefusesIndex ⟨3, .loadConst, 2, 1, 6⟩ := by
  refine ⟨by decide, ?_, ?_, ?_⟩
  · obtain ⟨t, heq, -, hcount⟩ := selecting.disassemble_exact.2.1 (by decide)
    exact ⟨t, heq, hcount (by decide)⟩
  · obtain ⟨table, htable, hnote, -⟩ :=
      selecting.disassemble_exact.2.2 ⟨0, .loadConst, 0, 1, 3⟩ (by decide)
    cases htable
    exact hnote _ rfl
  · intro s hs
    obtain ⟨table, -, -, -, hrefuses⟩ :=
      selecting.disassemble_exact.2.2 ⟨3, .loadConst, 2, 1, 6⟩ (by decide)
    by_contra hnot
    exact (hrefuses s hs).2 hnot (by decide)

end Code

/-- A listing that loads a constant before the first one. -/
def Listing.negative : Listing where
  name := "f"
  consts := ["1"]
  code := "LOAD_CONST -1\nRETURN_VALUE\n"

/-- A function can be made with a negative index, and then it has no listing. -/
theorem Code.disassemble_negative : ∃ c, Listing.negative.build = .ok c ∧
    c.disassemble = .error .outOfRange := by
  refine ⟨⟨"f", ⟨[], 0, "", ""⟩, [.int 1], [], [],
    [⟨0, .loadConst, -1, 1, 3⟩, ⟨3, ⟨83⟩, 0, 1, 4⟩], []⟩, ?_, rfl⟩
  decide +kernel

end StackLift
