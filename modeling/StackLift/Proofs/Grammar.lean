/-
# The grammar of assembly texts

What a text has to say so that it is assembled, and what its instructions are then, in terms of
the statements on its lines: `Reads` gives the words of the four kinds of statement, `Grammatical`
the rules for labels and operands, and `InstructionAt` the instruction of a statement at its place.

* `Assembly.parse_eq_ok_iff` : a line is read if its words make a statement;
* `Assembly.Cursor.Behind` : what is known of the text above a cursor;
* `Assembly.assemble_eq_ok_iff` : the instructions of a text are those of its statements;
* `Assembly.assemble_exact` : the texts that are assembled, and how they are laid out.
-/
import Mathlib.Data.List.Forall2
import Mathlib.Data.List.Nodup
import StackLift.Proofs.Spelling

namespace StackLift.Assembly

/-! ## Lines -/

/-- The words of a line: its parts between blanks, up to the first `#`. -/
def wordsOf (line : List Char) : List (List Char) :=
  ((line.takeWhile (· != '#')).splitOnP Text.isBlank).filter (!·.isEmpty)

/-- What the words of a line say. -/
inductive Reads : List (List Char) → Statement → Prop
  | blank : Reads [] .blank
  | line {word : List Char} {n : Int} (h : Number.Spells word n) :
      Reads [".line".toList, word] (.line n)
  | label (name : String) : Reads [name.toList ++ [':']] (.label name)
  | plain {e : Opcode.Entry} (he : e ∈ Opcode.table) (h : e.number < 90) :
      Reads [e.name.toList] (.instruction ⟨e.number⟩ none)
  | applied {e : Opcode.Entry} (he : e ∈ Opcode.table) (h : 90 ≤ e.number) (operand : String) :
      Reads [e.name.toList, operand.toList] (.instruction ⟨e.number⟩ (some operand))

/-- No two names in the table are the same. -/
theorem ofName?_name : ∀ e ∈ Opcode.table, Opcode.ofName? e.name = some ⟨e.number⟩ := by
  decide +kernel

/-- No name in the table looks like another kind of statement. -/
theorem name_ne : ∀ e ∈ Opcode.table,
    e.name.toList ≠ ".line".toList ∧ labelName? e.name.toList = none := by
  decide +kernel

theorem exists_mem_table_of_ofName? {name : String} {op : Opcode}
    (h : Opcode.ofName? name = some op) : ∃ e ∈ Opcode.table, e.name = name ∧ op = ⟨e.number⟩ := by
  unfold Opcode.ofName? at h
  obtain ⟨e, he, rfl⟩ := Option.map_eq_some_iff.1 h
  exact ⟨e, List.mem_of_find?_eq_some he, by simpa using List.find?_some he, rfl⟩

/-- A mnemonic with its operands is read as an instruction if there are as many as its opcode
asks for. -/
theorem reads_of_instructionOf {mnemonic : List Char} {operands : List (List Char)} {s : Statement}
    (h : instructionOf mnemonic operands = .ok s) : Reads (mnemonic :: operands) s := by
  unfold instructionOf at h
  split at h
  · cases h
  · rename_i op hop
    obtain ⟨e, he, hname, rfl⟩ := exists_mem_table_of_ofName? hop
    obtain rfl : e.name.toList = mnemonic := by rw [hname, String.toList_ofList]
    split at h
    · rename_i operand harg
      cases h
      have := Reads.applied he (of_decide_eq_true harg) (String.ofList operand)
      rwa [String.toList_ofList] at this
    · rename_i harg
      cases h
      exact .plain he (UInt8.not_le.1 (of_decide_eq_false harg))
    · cases h

theorem labelName?_eq_some_iff (field : List Char) (name : String) :
    labelName? field = some name ↔ field = name.toList ++ [':'] := by
  unfold labelName?
  constructor
  · intro h
    split at h
    · rename_i hlast
      cases h
      rw [String.toList_ofList, List.dropLast_append_getLast? _ hlast]
    · cases h
  · rintro rfl
    rw [List.getLast?_concat, if_pos rfl, List.dropLast_concat, String.ofList_toList]

/-- The fields of a line are read if they make a statement. -/
theorem ofFields_eq_ok_iff {fields : List (List Char)} {s : Statement} :
    Statement.ofFields fields = .ok s ↔ Reads fields s := by
  constructor
  · intro h
    cases fields with
    | nil =>
      cases h
      exact .blank
    | cons first rest =>
      simp only [Statement.ofFields] at h
      split at h
      · rename_i hfirst
        split at h
        · rename_i word
          split at h
          · rename_i n hn
            cases h
            rw [hfirst]
            exact .line (Number.decimal_eq_ok_iff.1 hn)
          · cases h
        · cases h
      · split at h
        · rename_i name hname
          cases h
          rw [(labelName?_eq_some_iff first name).1 hname]
          exact .label name
        · exact reads_of_instructionOf h
  · intro h
    cases h with
    | blank => rfl
    | line h =>
      simp only [Statement.ofFields, if_true, Number.decimal_eq_ok_iff.2 h]
    | label name =>
      have hline : name.toList ++ [':'] ≠ ".line".toList := by
        intro heq
        have := congrArg List.getLast? heq
        rw [List.getLast?_concat] at this
        exact absurd this (by decide)
      simp only [Statement.ofFields, if_neg hline, (labelName?_eq_some_iff _ name).2 rfl]
    | @plain e he h =>
      obtain ⟨hline, hlabel⟩ := name_ne e he
      have harg : (Opcode.mk e.number).hasArg = false := decide_eq_false (UInt8.not_le.2 h)
      simp only [Statement.ofFields, if_neg hline, hlabel, instructionOf, String.ofList_toList,
        ofName?_name e he, harg]
    | @applied e he h operand =>
      obtain ⟨hline, hlabel⟩ := name_ne e he
      have harg : (Opcode.mk e.number).hasArg = true := decide_eq_true h
      simp only [Statement.ofFields, if_neg hline, hlabel, instructionOf, String.ofList_toList,
        ofName?_name e he, harg]

/-- A line is read if its words make a statement. -/
theorem parse_eq_ok_iff {line : List Char} {s : Statement} :
    Statement.parse line = .ok s ↔ Reads (wordsOf line) s := by
  rw [Statement.parse, Text.fields_eq_filter, ofFields_eq_ok_iff]
  rfl

/-! ## Texts -/

/-- The name that a statement declares as a label. -/
def Statement.label? : Statement → Option String
  | .label name => some name
  | _ => none

/-- The source line that a statement sets. -/
def Statement.line? : Statement → Option Int
  | .line n => some n
  | _ => none

/-- The bytes that a statement takes up. -/
def Statement.size : Statement → Int
  | .instruction op _ => op.size
  | _ => 0

def Statement.isInstruction : Statement → Bool
  | .instruction _ _ => true
  | _ => false

/-- The labels that statements declare. -/
def declared (ss : List Statement) : List String := ss.filterMap Statement.label?

/-- The sum of the sizes of the instructions among statements. -/
def extent : List Statement → Int
  | [] => 0
  | s :: ss => s.size + extent ss

/-- The source line behind statements: the last one set, or else the first line. -/
def lineAfter (firstLine : Int) (ss : List Statement) : Int :=
  (ss.filterMap Statement.line?).getLast?.getD firstLine

/-- Whether the lines of a text say statements. -/
def Says (source : String) (ss : List Statement) : Prop :=
  List.Forall₂ (fun line s => Reads (wordsOf line) s) (source.toList.splitOn '\n') ss

/-- Whether a label stands for an offset: the sum of the sizes above the line that declares it. -/
def Stands (ss : List Statement) (name : String) (o : Int) : Prop :=
  ∃ k, ss[k]? = some (.label name) ∧ o = extent (ss.take k)

/-- The rules for the statements of a text.  No label is declared twice, and an operand is an
integer, or else the label of a jump, which is not above the next instruction if the jump is
relative. -/
structure Grammatical (ss : List Statement) : Prop where
  nodup : (declared ss).Nodup
  operand : ∀ k op word, ss[k]? = some (.instruction op (some word)) →
    (∃ n, Number.Spells word.toList n) ∨
      (op.isJump = true ∧ ∃ o, Stands ss word o ∧
        (op.jump = .relative → extent (ss.take (k + 1)) ≤ o))

/-- The lines with an instruction on them. -/
def instructionLines (ss : List Statement) : List Nat :=
  (List.range ss.length).filter fun k => ss[k]?.any Statement.isInstruction

/-- Whether a jump has an argument that leads to an offset: the offset itself, or if the jump is
relative the distance from the next instruction. -/
inductive LeadsTo (i : Instruction) (o : Int) : Prop
  | absolute (hjump : i.op.jump = .absolute) (h : i.arg = o)
  | relative (hjump : i.op.jump = .relative) (h : i.next + i.arg = o) (harg : 0 ≤ i.arg)

/-- Whether the argument of an instruction is what its operand stands for.  What spells an integer
is no label. -/
inductive Denotes (ss : List Statement) (i : Instruction) : Option String → Prop
  | none (h : i.arg = 0) : Denotes ss i none
  | integer {word : String} (h : Number.Spells word.toList i.arg) : Denotes ss i (some word)
  | label {word : String} {o : Int} (hword : ∀ n, ¬Number.Spells word.toList n)
      (ho : Stands ss word o) (h : LeadsTo i o) : Denotes ss i (some word)

/-- Whether an instruction is the one that a line asks for. -/
structure InstructionAt (firstLine : Int) (ss : List Statement) (k : Nat) (i : Instruction) :
    Prop where
  offset : i.offset = extent (ss.take k)
  next : i.next = i.offset + i.op.size
  line : i.line = lineAfter firstLine (ss.take k)
  operand : ∃ operand, ss[k]? = some (.instruction i.op operand) ∧ Denotes ss i operand

theorem Statement.label?_eq_some_iff (s : Statement) (name : String) :
    s.label? = some name ↔ s = .label name := by
  cases s <;> simp [Statement.label?]

theorem extent_append (ss ts : List Statement) : extent (ss ++ ts) = extent ss + extent ts := by
  induction ss with
  | nil => simp [extent]
  | cons s ss ih =>
    rw [List.cons_append, extent, extent, ih]
    omega

theorem extent_concat (ss : List Statement) (s : Statement) :
    extent (ss ++ [s]) = extent ss + s.size := by
  rw [extent_append, extent, extent, Int.add_zero]

theorem lineAfter_concat (firstLine : Int) (ss : List Statement) (s : Statement) :
    lineAfter firstLine (ss ++ [s]) = s.line?.getD (lineAfter firstLine ss) := by
  unfold lineAfter
  rw [List.filterMap_append]
  cases h : s.line? <;> simp [h]

/-- The labels that stand in a text are the declared ones. -/
theorem mem_declared_iff (ss : List Statement) (name : String) :
    name ∈ declared ss ↔ ∃ o, Stands ss name o := by
  rw [declared, List.mem_filterMap]
  constructor
  · rintro ⟨s, hs, hname⟩
    obtain ⟨k, hk⟩ := List.mem_iff_getElem?.1 hs
    rw [(s.label?_eq_some_iff name).1 hname] at hk
    exact ⟨_, k, hk, rfl⟩
  · rintro ⟨-, k, hk, -⟩
    exact ⟨_, List.mem_of_getElem? hk, rfl⟩

/-- A statement behind others adds the label that it declares. -/
theorem stands_concat (ss : List Statement) (s : Statement) (name : String) (o : Int) :
    Stands (ss ++ [s]) name o ↔ Stands ss name o ∨ (s = .label name ∧ o = extent ss) := by
  constructor
  · rintro ⟨k, hk, rfl⟩
    rcases Nat.lt_or_ge k ss.length with hlt | hge
    · rw [List.getElem?_append_left hlt] at hk
      exact .inl ⟨k, hk, by rw [List.take_append_of_le_length (Nat.le_of_lt hlt)]⟩
    · rw [List.getElem?_append_right hge, List.getElem?_singleton] at hk
      split at hk
      · obtain rfl : k = ss.length := by omega
        exact .inr ⟨Option.some.inj hk, by rw [List.take_left]⟩
      · cases hk
  · rintro (⟨k, hk, rfl⟩ | ⟨rfl, rfl⟩)
    · have hlt := (List.getElem?_eq_some_iff.1 hk).1
      exact ⟨k, by rw [List.getElem?_append_left hlt, hk],
        by rw [List.take_append_of_le_length (Nat.le_of_lt hlt)]⟩
    · exact ⟨ss.length, by simp, by rw [List.take_left]⟩

/-- A statement behind others declares no label twice if it declares a new one or none. -/
theorem nodup_declared_concat (ss : List Statement) (s : Statement) :
    (declared (ss ++ [s])).Nodup ↔
      (declared ss).Nodup ∧ ∀ name, s = .label name → name ∉ declared ss := by
  have hconcat : declared (ss ++ [s]) = declared ss ++ s.label?.toList := by
    rw [declared, declared, List.filterMap_append]
    cases h : s.label? <;> simp [h]
  simp only [hconcat, List.nodup_append, ← Statement.label?_eq_some_iff]
  cases s.label? with
  | none => simp
  | some name =>
    simp only [Option.toList_some, List.mem_singleton, forall_eq, List.nodup_singleton, true_and,
      Option.some.injEq, forall_eq']
    exact and_congr_right fun _ => ⟨fun h hmem => h name hmem rfl, fun h a ha heq => h (heq ▸ ha)⟩

/-! ## Places -/

/-- What a cursor knows of the statements above it. -/
structure Cursor.Behind (firstLine : Int) (above : List Statement) (c : Cursor) : Prop where
  offset : c.offset = extent above
  line : c.line = lineAfter firstLine above
  lookup : ∀ name o, c.labels.lookup name = some o ↔ Stands above name o
  nodup : (declared above).Nodup

/-- Whether an instruction is placed as its line asks for. -/
structure PlacedAt (firstLine : Int) (ss : List Statement) (k : Nat) (p : Placed) : Prop where
  offset : p.offset = extent (ss.take k)
  line : p.line = lineAfter firstLine (ss.take k)
  instruction : ss[k]? = some (.instruction p.op p.operand)

namespace Cursor.Behind

variable {firstLine : Int} {above : List Statement} {c : Cursor}

theorem start (firstLine : Int) : (Cursor.start firstLine).Behind firstLine [] where
  offset := rfl
  line := rfl
  lookup := by simp [Cursor.start, Stands]
  nodup := by simp [declared]

/-- A label is declared above a cursor that finds it. -/
theorem isSome_lookup_iff (h : c.Behind firstLine above) (name : String) :
    (c.labels.lookup name).isSome = true ↔ name ∈ declared above := by
  simp only [mem_declared_iff, Option.isSome_iff_exists, h.lookup]

/-- What a cursor knows goes on over a statement. -/
theorem concat (h : c.Behind firstLine above) {s : Statement} {c' : Cursor}
    (hnodup : (declared (above ++ [s])).Nodup) (hoffset : c'.offset = c.offset + s.size)
    (hline : c'.line = s.line?.getD c.line)
    (hlabels : ∀ name o, c'.labels.lookup name = some o ↔
      c.labels.lookup name = some o ∨ (s = .label name ∧ o = c.offset)) :
    c'.Behind firstLine (above ++ [s]) where
  offset := by rw [hoffset, extent_concat, h.offset]
  line := by rw [hline, lineAfter_concat, h.line]
  lookup name o := by rw [hlabels, stands_concat, h.lookup, h.offset]
  nodup := hnodup

/-- A cursor only moves over a statement that declares no label again. -/
theorem nodup_of_advance (h : c.Behind firstLine above) {s : Statement}
    {r : Cursor × Option Placed} (hok : c.advance s = .ok r) :
    (declared (above ++ [s])).Nodup := by
  rw [nodup_declared_concat]
  refine ⟨h.nodup, ?_⟩
  rintro name rfl
  rw [Cursor.advance] at hok
  split at hok
  · cases hok
  · rename_i hnew
    rwa [h.isSome_lookup_iff] at hnew

/-- A cursor moves over a statement that declares no label again, and places it if it is an
instruction. -/
theorem exists_advance (h : c.Behind firstLine above) {s : Statement}
    (hnodup : (declared (above ++ [s])).Nodup) :
    ∃ c' p, c.advance s = .ok (c', p) ∧ c'.Behind firstLine (above ++ [s]) ∧
      p.isSome = s.isInstruction ∧
      ∀ q, p = some q → q.offset = c.offset ∧ q.line = c.line ∧
        s = .instruction q.op q.operand := by
  cases s with
  | blank =>
    refine ⟨_, _, rfl, h.concat hnodup ?_ rfl ?_, rfl, nofun⟩
    · exact (Int.add_zero _).symm
    · simp
  | line n =>
    refine ⟨_, _, rfl, h.concat hnodup ?_ rfl ?_, rfl, nofun⟩
    · exact (Int.add_zero _).symm
    · simp
  | label name =>
    have hnew : ¬(c.labels.lookup name).isSome = true := by
      rw [h.isSome_lookup_iff]
      exact ((nodup_declared_concat above _).1 hnodup).2 name rfl
    rw [Cursor.advance, if_neg hnew]
    refine ⟨_, _, rfl, h.concat hnodup ?_ rfl ?_, rfl, nofun⟩
    · exact (Int.add_zero _).symm
    · intro name' o
      rw [Statement.label.injEq, List.lookup_cons]
      by_cases heq : name' = name
      · subst heq
        have hnone := Option.not_isSome_iff_eq_none.1 hnew
        simp [hnone, eq_comm]
      · simp [beq_false_of_ne heq, Ne.symm heq]
  | instruction op operand =>
    refine ⟨_, _, rfl, h.concat hnodup rfl rfl ?_, rfl, ?_⟩
    · simp
    · rintro q ⟨⟩
      exact ⟨rfl, rfl, rfl⟩

end Cursor.Behind

/-- Lines that declare no label again are placed: the labels stand where they are declared, and
the instructions as their lines ask for. -/
theorem place_of_forall₂ {firstLine : Int} {c : Cursor} {above ss : List Statement}
    {lines : List (List Char)} (hc : c.Behind firstLine above)
    (hss : List.Forall₂ (fun line s => Statement.parse line = .ok s) lines ss)
    (hnodup : (declared (above ++ ss)).Nodup) :
    ∃ ps labels, place c lines = .ok (ps, labels) ∧
      (∀ name o, labels.lookup name = some o ↔ Stands (above ++ ss) name o) ∧
      List.Forall₂ (PlacedAt firstLine (above ++ ss))
        ((List.range' above.length ss.length).filter fun k =>
          (above ++ ss)[k]?.any Statement.isInstruction) ps := by
  induction hss generalizing above c with
  | nil =>
    refine ⟨[], c.labels, rfl, ?_, .nil⟩
    rw [List.append_nil]
    exact hc.lookup
  | @cons line s lines ss hs hss ih =>
    have hsplit : above ++ s :: ss = (above ++ [s]) ++ ss := by
      rw [List.append_assoc, List.singleton_append]
    have hat : (above ++ s :: ss)[above.length]? = some s := by simp
    have hnodup' : (declared (above ++ [s])).Nodup := by
      rw [hsplit, declared, List.filterMap_append] at hnodup
      exact hnodup.of_append_left
    obtain ⟨c', p, hadvance, hc', hsome, hp⟩ := hc.exists_advance hnodup'
    obtain ⟨ps, labels, hplace, hlookup, hps⟩ := ih hc' (hsplit ▸ hnodup)
    refine ⟨p.toList ++ ps, labels, ?_, hsplit ▸ hlookup, ?_⟩
    · have hstep : Statement.parse line >>= c.advance = .ok (c', p) := by
        rw [hs]
        exact hadvance
      rw [place, hstep]
      dsimp only
      rw [hplace]
      rfl
    · rw [← hsplit, List.length_append, List.length_singleton] at hps
      rw [List.length_cons, List.range'_succ, List.filter_cons, hat, Option.any_some, ← hsome]
      cases p with
      | none => exact hps
      | some q =>
        obtain ⟨hoffset, hline, hq⟩ := hp q rfl
        refine .cons ⟨?_, ?_, ?_⟩ hps
        · rw [List.take_left, hoffset, hc.offset]
        · rw [List.take_left, hline, hc.line]
        · rw [hat, hq]

/-- Lines are only placed if they make statements that declare no label twice. -/
theorem forall₂_of_place {firstLine : Int} {c : Cursor} {above : List Statement}
    {lines : List (List Char)} {r : List Placed × Labels} (hc : c.Behind firstLine above)
    (h : place c lines = .ok r) :
    ∃ ss, List.Forall₂ (fun line s => Statement.parse line = .ok s) lines ss ∧
      (declared (above ++ ss)).Nodup := by
  induction lines generalizing c above r with
  | nil => exact ⟨[], .nil, by rw [List.append_nil]; exact hc.nodup⟩
  | cons line lines ih =>
    rw [place] at h
    split at h
    · cases h
    · rename_i c' p hstep
      obtain ⟨s, hs, hadvance⟩ := exists_of_bind_eq_ok hstep
      obtain ⟨r', hrest, -⟩ := exists_of_bind_eq_ok h
      have hnodup := hc.nodup_of_advance hadvance
      obtain ⟨c'', p', hadvance', hc', -⟩ := hc.exists_advance hnodup
      obtain ⟨rfl, -⟩ := Prod.mk.inj (Except.ok.inj (hadvance'.symm.trans hadvance))
      obtain ⟨ss, hss, hnodup⟩ := ih hc' hrest
      refine ⟨s :: ss, .cons hs hss, ?_⟩
      rwa [List.append_assoc, List.singleton_append] at hnodup

/-! ## Operands -/

/-- A list is mapped without an error if each of its elements is. -/
theorem mapM_eq_ok_iff {ε α β : Type} {f : α → Except ε β} {l : List α} {m : List β} :
    l.mapM f = .ok m ↔ List.Forall₂ (fun a b => f a = .ok b) l m := by
  induction l generalizing m with
  | nil =>
    rw [List.forall₂_nil_left_iff]
    exact ⟨fun h => (Except.ok.inj h).symm, fun h => h ▸ rfl⟩
  | cons a l ih =>
    rw [List.mapM_cons]
    constructor
    · intro h
      obtain ⟨b, hb, h⟩ := exists_of_bind_eq_ok h
      obtain ⟨bs, hbs, h⟩ := exists_of_bind_eq_ok h
      cases h
      exact .cons hb (ih.1 hbs)
    · rintro (- | ⟨hb, hbs⟩)
      rw [hb, ih.2 hbs]
      rfl

section Resolve

variable {ss : List Statement} {labels : Labels} {p : Placed}
  (hlabels : ∀ name o, labels.lookup name = some o ↔ Stands ss name o)
include hlabels

/-- An operand has the argument that it stands for. -/
theorem argument_eq_ok_iff {word : String} {arg : Int} :
    p.argument labels word = .ok arg ↔
      Denotes ss ⟨p.offset, p.op, arg, p.line, p.next⟩ (some word) := by
  unfold Placed.argument
  cases hdecimal : Number.decimal word.toList with
  | ok n =>
    have hn := Number.decimal_eq_ok_iff.1 hdecimal
    constructor
    · intro h
      cases h
      exact .integer hn
    · intro h
      cases h with
      | integer h => rw [← hdecimal, Number.decimal_eq_ok_iff.2 h]
      | label hword => exact absurd hn (hword n)
  | error e =>
    have hword : ∀ n, ¬Number.Spells word.toList n := by
      intro n hn
      rw [Number.decimal_eq_ok_iff.2 hn] at hdecimal
      cases hdecimal
    constructor
    · intro h
      dsimp only at h
      split at h
      · cases h
      · rename_i o ho
        refine .label hword ((hlabels word o).1 ho) ?_
        cases hjump : p.op.jump with
        | absolute =>
          rw [hjump] at h
          cases h
          exact .absolute hjump rfl
        | relative =>
          rw [hjump] at h
          dsimp only at h
          split at h
          · cases h
          · cases h
            exact .relative hjump (show p.next + (o - p.next) = o by omega)
              (show 0 ≤ o - p.next by omega)
        | none =>
          rw [hjump] at h
          cases h
    · intro h
      cases h with
      | integer h => exact absurd h (hword arg)
      | @label _ o _ ho h =>
        simp only [(hlabels word o).2 ho]
        cases h with
        | absolute hjump h =>
          dsimp only at hjump h
          rw [hjump, h]
        | relative hjump h harg =>
          dsimp only at hjump h harg
          rw [hjump]
          dsimp only
          rw [if_neg (by omega)]
          exact congrArg Except.ok (by omega)

/-- Resolving the operand of an instruction gives it the argument that it stands for. -/
theorem resolve_eq_ok_iff {i : Instruction} :
    p.resolve labels = .ok i ↔
      ∃ arg, i = ⟨p.offset, p.op, arg, p.line, p.next⟩ ∧ Denotes ss i p.operand := by
  unfold Placed.resolve
  constructor
  · intro h
    split at h
    · rename_i hoperand
      cases h
      exact ⟨0, rfl, hoperand ▸ .none rfl⟩
    · rename_i word hoperand
      split at h
      · rename_i arg harg
        cases h
        exact ⟨arg, rfl, hoperand ▸ (argument_eq_ok_iff hlabels).1 harg⟩
      · cases h
  · rintro ⟨arg, rfl, hdenotes⟩
    cases hoperand : p.operand with
    | none =>
      rw [hoperand] at hdenotes
      cases hdenotes with
      | none h =>
        obtain rfl : arg = 0 := h
        rfl
    | some word =>
      rw [hoperand] at hdenotes
      simp only [(argument_eq_ok_iff hlabels).2 hdenotes]

/-- A placed instruction is resolved to the one that its line asks for. -/
theorem resolve_eq_ok_iff_instructionAt {firstLine : Int} {k : Nat}
    (hp : PlacedAt firstLine ss k p) {i : Instruction} :
    p.resolve labels = .ok i ↔ InstructionAt firstLine ss k i := by
  rw [resolve_eq_ok_iff hlabels]
  constructor
  · rintro ⟨arg, rfl, hdenotes⟩
    exact ⟨hp.offset, rfl, hp.line, p.operand, hp.instruction, hdenotes⟩
  · rintro ⟨hoffset, hnext, hline, operand, hat, hdenotes⟩
    have hsame := hp.instruction.symm.trans hat
    rw [Option.some.injEq, Statement.instruction.injEq] at hsame
    obtain ⟨hop, rfl⟩ := hsame
    refine ⟨i.arg, ?_, hdenotes⟩
    rw [Placed.next, hp.offset, hp.line, hop, ← hoffset, ← hline, ← hnext]

end Resolve

/-! ## Lists of instructions -/

/-- Two relations that agree wherever a third one leads relate the same lists. -/
theorem forall₂_iff_of_forall₂ {α β γ : Type} {r : α → β → Prop} {s : β → γ → Prop}
    {t : α → γ → Prop} {as : List α} {bs : List β} {cs : List γ} (hr : List.Forall₂ r as bs)
    (h : ∀ a b c, r a b → (s b c ↔ t a c)) : List.Forall₂ s bs cs ↔ List.Forall₂ t as cs := by
  induction hr generalizing cs with
  | nil => rw [List.forall₂_nil_left_iff, List.forall₂_nil_left_iff]
  | cons hab _ ih =>
    cases cs with
    | nil => simp
    | cons c cs => rw [List.forall₂_cons, List.forall₂_cons, h _ _ c hab, ih]

theorem exists_forall₂_iff {α β : Type} {r : α → β → Prop} {as : List α} :
    (∃ bs, List.Forall₂ r as bs) ↔ ∀ a ∈ as, ∃ b, r a b := by
  induction as with
  | nil => simp
  | cons a as ih =>
    rw [List.forall_mem_cons, ← ih]
    constructor
    · rintro ⟨_, _ | ⟨hb, hbs⟩⟩
      exact ⟨⟨_, hb⟩, _, hbs⟩
    · rintro ⟨⟨b, hb⟩, bs, hbs⟩
      exact ⟨b :: bs, .cons hb hbs⟩

theorem mem_instructionLines_iff (ss : List Statement) (k : Nat) :
    k ∈ instructionLines ss ↔ ∃ op operand, ss[k]? = some (.instruction op operand) := by
  rw [instructionLines, List.mem_filter, List.mem_range]
  constructor
  · rintro ⟨-, hk⟩
    cases hs : ss[k]? with
    | none => simp [hs] at hk
    | some s =>
      cases s with
      | instruction op operand => exact ⟨op, operand, rfl⟩
      | blank => simp [hs, Statement.isInstruction] at hk
      | line n => simp [hs, Statement.isInstruction] at hk
      | label name => simp [hs, Statement.isInstruction] at hk
  · rintro ⟨op, operand, hk⟩
    exact ⟨(List.getElem?_eq_some_iff.1 hk).1, by rw [hk]; rfl⟩

/-- An argument leads a jump to every offset, and a relative jump to those that are not before the
next instruction. -/
theorem exists_leadsTo_iff {offset line next o : Int} {op : Opcode} :
    (∃ arg, LeadsTo ⟨offset, op, arg, line, next⟩ o) ↔
      op.isJump = true ∧ (op.jump = .relative → next ≤ o) := by
  constructor
  · rintro ⟨arg, hjump | ⟨hjump, hnext, harg⟩⟩
    · refine ⟨?_, ?_⟩
      · simp [Opcode.isJump, show op.jump = .absolute from hjump]
      · intro hrelative
        cases hjump.symm.trans hrelative
    · refine ⟨?_, ?_⟩
      · simp [Opcode.isJump, show op.jump = .relative from hjump]
      · intro _
        dsimp only at hnext harg
        omega
  · rintro ⟨hjump, hle⟩
    cases hkind : op.jump with
    | absolute => exact ⟨o, .absolute hkind rfl⟩
    | relative =>
      have := hle hkind
      exact ⟨o - next, .relative hkind (show next + (o - next) = o by omega)
        (show 0 ≤ o - next by omega)⟩
    | none =>
      rw [Opcode.isJump, hkind] at hjump
      cases hjump

/-- A word stands for an argument if it is an integer, or else a label that the jump can go to. -/
theorem exists_denotes_iff {ss : List Statement} {offset line next : Int} {op : Opcode}
    {word : String} :
    (∃ arg, Denotes ss ⟨offset, op, arg, line, next⟩ (some word)) ↔
      (∃ n, Number.Spells word.toList n) ∨
        (op.isJump = true ∧ ∃ o, Stands ss word o ∧ (op.jump = .relative → next ≤ o)) := by
  constructor
  · rintro ⟨arg, h⟩
    cases h with
    | integer h => exact .inl ⟨arg, h⟩
    | @label _ o _ ho h =>
      obtain ⟨hjump, hle⟩ := exists_leadsTo_iff.1 ⟨arg, h⟩
      exact .inr ⟨hjump, o, ho, hle⟩
  · intro h
    by_cases hword : ∃ n, Number.Spells word.toList n
    · obtain ⟨n, hn⟩ := hword
      exact ⟨n, .integer hn⟩
    · obtain ⟨hjump, o, ho, hle⟩ := h.resolve_left hword
      obtain ⟨arg, harg⟩ := exists_leadsTo_iff.2 ⟨hjump, hle⟩
      exact ⟨arg, .label (not_exists.1 hword) ho harg⟩

/-- A line has an instruction if its operand, if there is one, stands for an argument. -/
theorem exists_instructionAt_iff {firstLine : Int} {ss : List Statement} {k : Nat} {op : Opcode}
    {operand : Option String} (hk : ss[k]? = some (.instruction op operand)) :
    (∃ i, InstructionAt firstLine ss k i) ↔ ∃ arg, Denotes ss ⟨extent (ss.take k), op, arg,
      lineAfter firstLine (ss.take k), extent (ss.take (k + 1))⟩ operand := by
  have hnext : extent (ss.take (k + 1)) = extent (ss.take k) + op.size := by
    rw [List.take_add_one, hk, Option.toList_some, extent_concat]
    rfl
  constructor
  · rintro ⟨i, hoffset, hnext', hline, operand', hk', hdenotes⟩
    obtain ⟨hop, rfl⟩ := Statement.instruction.inj (Option.some.inj (hk.symm.trans hk'))
    rw [hnext, hop, ← hoffset, ← hnext', ← hline]
    exact ⟨i.arg, hdenotes⟩
  · rintro ⟨arg, hdenotes⟩
    exact ⟨_, rfl, hnext, rfl, operand, hk, hdenotes⟩

/-- The lines with an instruction have one each if the text follows the rules for operands. -/
theorem forall_exists_instructionAt_iff (firstLine : Int) (ss : List Statement) :
    (∀ k ∈ instructionLines ss, ∃ i, InstructionAt firstLine ss k i) ↔
      ∀ k op word, ss[k]? = some (.instruction op (some word)) →
        (∃ n, Number.Spells word.toList n) ∨
          (op.isJump = true ∧ ∃ o, Stands ss word o ∧
            (op.jump = .relative → extent (ss.take (k + 1)) ≤ o)) := by
  constructor
  · intro h k op word hk
    have hi := h k ((mem_instructionLines_iff ss k).2 ⟨op, some word, hk⟩)
    rwa [exists_instructionAt_iff hk, exists_denotes_iff] at hi
  · intro h k hk
    obtain ⟨op, operand, hk⟩ := (mem_instructionLines_iff ss k).1 hk
    rw [exists_instructionAt_iff hk]
    cases operand with
    | none => exact ⟨0, .none rfl⟩
    | some word => exact exists_denotes_iff.2 (h k op word hk)

/-! ## Targets -/

/-- A jump that leads to an offset of 64 bits has it as its target. -/
theorem LeadsTo.target_eq {i : Instruction} {o : Int} (h : LeadsTo i o)
    (ho : Number.isInt64 o = true) : i.target = o := by
  unfold Instruction.target
  cases h with
  | absolute hjump h => rw [if_neg (by rw [hjump]; decide), h]
  | relative hjump h _ => rw [if_pos hjump, h, Number.wrap_of_isInt64 ho]

theorem Statement.size_nonneg (s : Statement) : 0 ≤ s.size := by
  cases s with
  | instruction op operand => exact Int.le_of_lt op.size_pos
  | blank => exact Int.le_refl 0
  | line n => exact Int.le_refl 0
  | label name => exact Int.le_refl 0

theorem extent_nonneg (ss : List Statement) : 0 ≤ extent ss := by
  induction ss with
  | nil => exact Int.le_refl 0
  | cons s ss ih =>
    have := s.size_nonneg
    rw [extent]
    omega

/-- Statements do not take up more than the characters of their lines. -/
theorem extent_le_length {lines : List (List Char)} {ss : List Statement}
    (h : List.Forall₂ (fun line s => Statement.parse line = .ok s) lines ss) :
    extent ss ≤ lines.flatten.length := by
  induction h with
  | nil => exact Int.le_refl 0
  | @cons line s lines ss hs _ ih =>
    have hsize : s.size ≤ line.length := by
      cases s with
      | instruction op operand => exact size_le_length_of_parse hs
      | blank => exact Int.natCast_nonneg _
      | line n => exact Int.natCast_nonneg _
      | label name => exact Int.natCast_nonneg _
    rw [extent, List.flatten_cons, List.length_append]
    omega

/-- A label stands for an offset of 64 bits in a text whose length has 64 bits. -/
theorem Stands.isInt64 {source : String} {ss : List Statement} {name : String} {o : Int}
    (h : Stands ss name o) (hss : Says source ss) (hsize : source.length < 9223372036854775808) :
    Number.isInt64 o = true := by
  obtain ⟨k, -, rfl⟩ := h
  simp only [Says, ← Text.lines_eq_splitOn, ← parse_eq_ok_iff] at hss
  have hlength := length_flatten_lines_le source.toList
  rw [String.length_toList] at hlength
  have hle := extent_le_length hss
  have hsplit := extent_append (ss.take k) (ss.drop k)
  rw [List.take_append_drop] at hsplit
  have htake := extent_nonneg (ss.take k)
  have hdrop := extent_nonneg (ss.drop k)
  exact decide_eq_true ⟨by omega, by omega⟩

/-! ## The assembler -/

/-- The instructions of a text are those that the lines of its statements ask for. -/
theorem assemble_eq_ok_iff {source : String} {firstLine : Int} {is : List Instruction} :
    assemble source firstLine = .ok is ↔ ∃ ss, Says source ss ∧ (declared ss).Nodup ∧
      List.Forall₂ (InstructionAt firstLine ss) (instructionLines ss) is := by
  have hstart := Cursor.Behind.start firstLine
  have hplaced : ∀ ss, Says source ss → (declared ss).Nodup → (assemble source firstLine = .ok is ↔
      List.Forall₂ (InstructionAt firstLine ss) (instructionLines ss) is) := by
    intro ss hss hnodup
    simp only [Says, ← Text.lines_eq_splitOn, ← parse_eq_ok_iff] at hss
    obtain ⟨ps, labels, hplace, hlabels, hps⟩ := place_of_forall₂ hstart hss hnodup
    rw [List.nil_append] at hlabels hps
    rw [instructionLines, List.range_eq_range', assemble, hplace]
    exact mapM_eq_ok_iff.trans
      (forall₂_iff_of_forall₂ hps fun k p i hp => resolve_eq_ok_iff_instructionAt hlabels hp)
  constructor
  · intro h
    obtain ⟨r, hplace, -⟩ := exists_of_bind_eq_ok h
    obtain ⟨ss, hss, hnodup⟩ := forall₂_of_place hstart hplace
    simp only [parse_eq_ok_iff, Text.lines_eq_splitOn] at hss
    exact ⟨ss, hss, hnodup, (hplaced ss hss hnodup).1 h⟩
  · rintro ⟨ss, hss, hnodup, his⟩
    exact (hplaced ss hss hnodup).2 his

/-- The statements of an assembled text follow the rules. -/
theorem exists_grammatical_of_assemble {source : String} {firstLine : Int} {is : List Instruction}
    (h : assemble source firstLine = .ok is) : ∃ ss, Says source ss ∧ Grammatical ss ∧
      List.Forall₂ (InstructionAt firstLine ss) (instructionLines ss) is := by
  obtain ⟨ss, hss, hnodup, his⟩ := assemble_eq_ok_iff.1 h
  have hoperand := (forall_exists_instructionAt_iff _ ss).1 (exists_forall₂_iff.1 ⟨is, his⟩)
  exact ⟨ss, hss, ⟨hnodup, hoperand⟩, his⟩

/-- An instruction of a text is the one that a line asks for. -/
theorem exists_instructionAt_of_mem {source : String} {firstLine : Int} {is : List Instruction}
    (h : assemble source firstLine = .ok is) {i : Instruction} (hi : i ∈ is) :
    ∃ ss k, Says source ss ∧ InstructionAt firstLine ss k i := by
  obtain ⟨ss, hss, -, his⟩ := assemble_eq_ok_iff.1 h
  obtain ⟨k, hk⟩ := exists_forall₂_iff.1 ⟨_, his.flip⟩ i hi
  exact ⟨ss, k, hss, hk⟩

/-- A statement of a text is read from the words of a line. -/
theorem Says.exists_reads {source : String} {ss : List Statement} (h : Says source ss)
    {s : Statement} (hs : s ∈ ss) : ∃ words, Reads words s := by
  obtain ⟨line, hline⟩ := exists_forall₂_iff.1 ⟨_, h.flip⟩ s hs
  exact ⟨_, hline⟩

/-- The jumps of a text go where their labels stand. -/
theorem InstructionAt.stands_target {firstLine : Int} {source : String} {ss : List Statement}
    {k : Nat} {i : Instruction} (h : InstructionAt firstLine ss k i) (hss : Says source ss)
    (hsize : source.length < 9223372036854775808) {op : Opcode} {word : String}
    (hk : ss[k]? = some (.instruction op (some word)))
    (hword : ∀ n, ¬Number.Spells word.toList n) : Stands ss word i.target := by
  obtain ⟨operand, hk', hdenotes⟩ := h.operand
  obtain ⟨-, rfl⟩ := Statement.instruction.inj (Option.some.inj (hk.symm.trans hk'))
  cases hdenotes with
  | integer h => exact absurd h (hword _)
  | label _ ho hlead => exact hlead.target_eq (ho.isInt64 hss hsize) ▸ ho

/-- A text is assembled if and only if its lines make statements that follow the rules.  Each line
with an instruction has then one, in their order.  It stands behind the instructions above, has the
source line last set and the argument that its operand stands for, and if that is a label its
target is where the label stands. -/
theorem assemble_exact (source : String) (firstLine : Int) :
    ((∃ is, assemble source firstLine = .ok is) ↔ ∃ ss, Says source ss ∧ Grammatical ss) ∧
      ∀ is, assemble source firstLine = .ok is → ∃ ss, Says source ss ∧ Grammatical ss ∧
        List.Forall₂ (fun k i => InstructionAt firstLine ss k i ∧
          (source.length < 9223372036854775808 → ∀ op word,
            ss[k]? = some (.instruction op (some word)) → (∀ n, ¬Number.Spells word.toList n) →
              Stands ss word i.target)) (instructionLines ss) is := by
  refine ⟨⟨?_, ?_⟩, ?_⟩
  · rintro ⟨is, h⟩
    obtain ⟨ss, hss, hrules, -⟩ := exists_grammatical_of_assemble h
    exact ⟨ss, hss, hrules⟩
  · rintro ⟨ss, hss, hrules⟩
    obtain ⟨is, his⟩ := exists_forall₂_iff.2
      ((forall_exists_instructionAt_iff firstLine ss).2 hrules.operand)
    exact ⟨is, assemble_eq_ok_iff.2 ⟨ss, hss, hrules.nodup, his⟩⟩
  · intro is h
    obtain ⟨ss, hss, hrules, his⟩ := exists_grammatical_of_assemble h
    exact ⟨ss, hss, hrules,
      his.imp fun k i hi => ⟨hi, fun hsize op word => hi.stands_target hss hsize⟩⟩

/-- A text with two labels at one place, one of them spelt like an integer, and a label at the
end. -/
def crossing : String :=
  "top:\n7: # not where 7 leads\nLOAD_FAST 0\n.line -3\nPOP_JUMP_IF_FALSE end # behind\n" ++
    "FOR_ITER end\nJUMP_ABSOLUTE top\nJUMP_ABSOLUTE +7\nend:"

/-- What it is assembled to. -/
def crossed : List Instruction :=
  [⟨0, ⟨124⟩, 0, 1, 3⟩, ⟨3, ⟨114⟩, 15, -3, 6⟩, ⟨6, ⟨93⟩, 6, -3, 9⟩, ⟨9, ⟨113⟩, 0, -3, 12⟩,
    ⟨12, ⟨113⟩, 7, -3, 15⟩]

theorem assemble_exact_crossing :
    assemble crossing 1 = .ok crossed ∧ crossing.length < 9223372036854775808 ∧
      ∃ ss, Says crossing ss ∧ Grammatical ss ∧
        List.Forall₂ (fun k i => InstructionAt 1 ss k i ∧ ∀ op word,
          ss[k]? = some (.instruction op (some word)) → (∀ n, ¬Number.Spells word.toList n) →
            Stands ss word i.target) (instructionLines ss) crossed := by
  have h : assemble crossing 1 = .ok crossed := by decide +kernel
  have hsize : crossing.length < 9223372036854775808 := by decide +kernel
  obtain ⟨ss, hss, hrules, his⟩ := (assemble_exact crossing 1).2 _ h
  exact ⟨h, hsize, ss, hss, hrules, his.imp fun k i hi => ⟨hi.1, hi.2 hsize⟩⟩

end StackLift.Assembly
