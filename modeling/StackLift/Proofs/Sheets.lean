/-
# The code of a block in one array

A block keeps the phis of its entry slots apart from its other values, and its code is the one list
after the other.  It can also be kept in one array.  A new value goes to the end of it.  The phi of
a new entry slot goes behind the phis that are there, and what has stood from that place on is moved
up by one.  Sheets are such arrays, kept beside a graph from the beginning; whatever is done to the
graph, they hold the code of its blocks.

* `Sheet` : the code of a block in one array, and the phis of its entry slots;
* `Sheet.shift`, `Sheet.insert` : a phi is put in its place;
* `Sheets.follow` : what an operation on a graph does to the sheets beside it;
* `Graph.sheets_perform` : an operation does the same to the blocks and to their sheets;
* `Graph.Recorded.eq_sheets` : so sheets that were kept all along are those of the graph.
-/
import StackLift.Proofs.SingleChanges

namespace StackLift

/-! ## One block -/

/-- The code of a block in one array, and the phis of its entry slots. -/
@[ext]
structure Sheet where
  code : Array ValueId := #[]
  slots : Array ValueId := #[]
  deriving DecidableEq, Repr, Inhabited

namespace Sheet

variable {code : Array ValueId} {pos n : Nat}

/-- The array in which the `n` entries from a position on are moved up by one, the last one
first. -/
def shift (code : Array ValueId) (pos : Nat) : (n : Nat) → Array ValueId
  | 0 => code
  | n + 1 => shift (code.setIfInBounds (pos + n + 1) (code.getD (pos + n) 0)) pos n

/-- The sheet with a value at the end of the code. -/
def append (x : Sheet) (v : ValueId) : Sheet := { x with code := x.code.push v }

/-- The sheet with a phi behind the other ones: the array gets one more place, what comes after the
phis is moved up, and the phi is put into the place that has become free. -/
def insert (x : Sheet) (v : ValueId) : Sheet where
  code :=
    (shift (x.code.push 0) x.slots.size (x.code.size - x.slots.size)).setIfInBounds x.slots.size v
  slots := x.slots.push v

/-- Moving entries keeps the number of places. -/
@[simp]
theorem size_shift (code : Array ValueId) (pos n : Nat) :
    (shift code pos n).size = code.size := by
  induction n generalizing code with
  | zero => rfl
  | succ n ih => rw [shift, ih, Array.size_setIfInBounds]

/-- Above the position, and up to where the last entry is moved, stands what has stood one place
below; all else is as it was. -/
theorem getElem?_shift (h : pos + n < code.size) (i : Nat) :
    (shift code pos n)[i]? = if pos < i ∧ i ≤ pos + n then code[i - 1]? else code[i]? := by
  induction n generalizing code with
  | zero => rw [shift, if_neg (by omega)]
  | succ n ih =>
    have hlast : code[pos + n]? = some (code.getD (pos + n) 0) := by
      rw [Array.getD_eq_getD_getElem?, Array.getElem?_eq_getElem (by omega), Option.getD_some]
    rw [shift, ih (by rw [Array.size_setIfInBounds]; omega)]
    simp only [Array.getElem?_setIfInBounds]
    -- the entry that was moved first is not moved again, as those below it are moved after it
    by_cases htop : i = pos + n + 1
    · subst htop
      rw [if_neg (by omega), if_pos rfl, if_pos (by omega), if_pos (by omega), ← hlast]
      rfl
    · by_cases hmoved : pos < i ∧ i ≤ pos + n
      · rw [if_pos hmoved, if_neg (by omega), if_pos (by omega)]
      · rw [if_neg hmoved, if_neg (Ne.symm htop), if_neg (by omega)]

/-- Where the code begins with the phis, a new one comes behind them and before all else. -/
theorem toList_code_insert {x : Sheet} {rest : List ValueId}
    (h : x.code.toList = x.slots.toList ++ rest) (v : ValueId) :
    (x.insert v).code.toList = x.slots.toList ++ v :: rest := by
  have hsize : x.code.size = x.slots.size + rest.length := by
    simpa using congrArg List.length h
  have hget : ∀ i, x.code[i]? = (x.slots.toList ++ rest)[i]? := fun i => by
    rw [← h, Array.getElem?_toList]
  have hroom : x.slots.size + (x.code.size - x.slots.size) < (x.code.push 0).size := by
    rw [Array.size_push]
    omega
  refine List.ext_getElem? fun i => ?_
  rw [insert, Array.getElem?_toList, Array.getElem?_setIfInBounds, getElem?_shift hroom, size_shift,
    Array.getElem?_push, Array.getElem?_push]
  -- the phis stay, the new one is at the place behind them, and all else has moved up by one
  rcases Nat.lt_trichotomy i x.slots.size with hlt | rfl | hgt
  · rw [if_neg (Nat.ne_of_gt hlt), if_neg (by omega), if_neg (by omega), hget,
      List.getElem?_append_left (by simpa using hlt),
      List.getElem?_append_left (by simpa using hlt)]
  · rw [if_pos rfl, if_pos (by rw [Array.size_push]; omega),
      List.getElem?_append_right (by simp), Array.length_toList, Nat.sub_self,
      List.getElem?_cons_zero]
  · obtain ⟨k, rfl⟩ := Nat.exists_eq_add_of_lt hgt
    have hindex : x.slots.size + k + 1 - x.slots.size = k + 1 := by omega
    rw [if_neg (Nat.ne_of_lt hgt), List.getElem?_append_right (by simp; omega), Array.length_toList,
      hindex, List.getElem?_cons_succ]
    -- the place that was added is filled by the last entry, so nothing is left of its first content
    by_cases hk : k < rest.length
    · rw [if_pos (by omega), Nat.add_sub_cancel, if_neg (by omega), hget,
        List.getElem?_append_right (by simp), Array.length_toList, Nat.add_sub_cancel_left]
    · rw [if_neg (by omega), if_neg (by omega), Array.getElem?_eq_none (by omega),
        List.getElem?_eq_none (by omega)]

end Sheet

/-- The sheet of a block. -/
def Block.sheet (x : Block) : Sheet := ⟨x.code.toArray, x.phis⟩

namespace Block

/-- A value that is put at the end of the code is not a phi of an entry slot. -/
theorem sheet_push_body (x : Block) (v : ValueId) :
    sheet { x with body := x.body.push v } = x.sheet.append v := by
  simp [sheet, code, Sheet.append]

/-- The phi of a new entry slot comes behind the other ones, and before all else. -/
theorem sheet_push_phis (x : Block) (v : ValueId) :
    sheet { x with phis := x.phis.push v } = x.sheet.insert v := by
  refine Sheet.ext (Array.toList_inj.1 ?_) rfl
  rw [Sheet.toList_code_insert rfl]
  simp [sheet, code]

end Block

/-! ## All blocks -/

/-- The sheets of all blocks that were ever made, and how many values were. -/
structure Sheets where
  count : Nat := 0
  sheets : Array Sheet := #[]
  deriving DecidableEq, Repr

namespace Sheets

/-- The sheets before anything was made. -/
def empty : Sheets := {}

/-- The sheet of a block. -/
def sheet (S : Sheets) (b : BlockId) : Sheet := S.sheets.getD b default

/-- The sheets with one more block. -/
def addBlock (S : Sheets) : Sheets := { S with sheets := S.sheets.push {} }

/-- The sheets with a new value, which `put` enters on the sheet of a block. -/
def add (S : Sheets) (put : Sheet → ValueId → Sheet) (b : BlockId) : Sheets where
  count := S.count + 1
  sheets := S.sheets.modify b fun x => put x S.count

/-- The sheets with the phis of `n` more entry slots of a block. -/
def addSlots (S : Sheets) (b : BlockId) : Nat → Sheets
  | 0 => S
  | n + 1 => (S.add .insert b).addSlots b n

/-- The sheets on which a block has the phi of an entry slot. -/
def reach (S : Sheets) (b : BlockId) (depth : Nat) : Sheets :=
  S.addSlots b (depth + 1 - (S.sheet b).slots.size)

end Sheets

/-- The entry slot that a call on the stack of a block asks for, if it goes below what was
pushed. -/
def Block.slotFor? (x : Block) : StackCall → Option Nat
  | .push _ => none
  | .pop _ => if x.stack = [] then some x.used else none
  | .peek _ => if x.stack = [] then some x.used else none
  | .entrySlot _ depth => some depth
  | .exitSlot _ depth =>
    if depth < x.stack.length then none else some (x.used + depth - x.stack.length)

/-- The sheets after an operation on the graph beside which they are kept. -/
def Sheets.follow (S : Sheets) (g : Graph) : Graph.Operation → Sheets
  | .ensure offset => if g.has offset then S else S.addBlock
  | .remove _ => S
  | .append b _ _ => S.add .append b
  | .connect _ _ => S
  | .terminate _ _ _ => S
  | .call b c => ((g.block b).slotFor? c).elim S (S.reach b)

namespace Graph

variable {g g' : Graph} {b : BlockId} {S : Sheets}

/-- The sheets of the blocks of a graph. -/
def sheets (g : Graph) : Sheets := ⟨g.valueCount, g.blocks.map Block.sheet⟩

/-- The sheet of a block, also of one that was never made. -/
@[simp]
theorem sheet_sheets (g : Graph) (b : BlockId) : g.sheets.sheet b = (g.block b).sheet := by
  rw [Sheets.sheet, sheets, block, Array.getD_eq_getD_getElem?, Array.getD_eq_getD_getElem?,
    Array.getElem?_map]
  cases g.blocks[b]? <;> rfl

/-- A change to a block does to its sheet what it does to the block. -/
theorem map_sheet_modify (blocks : Array Block) {f : Block → Block} (put : Sheet → Sheet)
    (h : ∀ x, (f x).sheet = put x.sheet) (b : BlockId) :
    (blocks.modify b f).map Block.sheet = (blocks.map Block.sheet).modify b put := by
  refine Array.ext_getElem? fun i => ?_
  rw [Array.getElem?_map, Array.getElem?_modify, Array.getElem?_modify, Array.getElem?_map]
  split
  · cases blocks[i]? with
    | none => rfl
    | some x => exact congrArg some (h x)
  · rfl

/-- What is not in the code of a block is not on its sheet. -/
theorem sheets_modifyBlock {f : Block → Block} (h : ∀ x, (f x).sheet = x.sheet) (g : Graph)
    (b : BlockId) : (g.modifyBlock b f).sheets = g.sheets := by
  have hid : (g.blocks.map Block.sheet).modify b id = g.blocks.map Block.sheet := by
    refine Array.ext_getElem? fun i => ?_
    simp [Array.getElem?_modify]
  rw [sheets, modifyBlock, map_sheet_modify g.blocks id h, hid]
  rfl

/-- A new value is put where its block and its sheet have a place for it. -/
theorem sheets_addDefinition {f : Block → Block} {put : Sheet → ValueId → Sheet}
    (h : ∀ x, (f x).sheet = put x.sheet g.valueCount) (b : BlockId) (line : Int)
    (e : Option Expr) :
    ((g.addDefinition b line e).modifyBlock b f).sheets = g.sheets.add put b := by
  have hmap := map_sheet_modify g.blocks (fun x => put x g.valueCount) h b
  rw [sheets, modifyBlock, valueCount, count_addDefinition]
  exact congrArg (Sheets.mk _) hmap

/-- A value that is defined goes to the end of the code. -/
theorem sheets_define (g : Graph) (b : BlockId) (line : Int) (e : Option Expr) :
    (g.define b line e).2.sheets = g.sheets.add .append b :=
  sheets_addDefinition (fun x => x.sheet_push_body _) b line e

/-- The phi of an entry slot goes behind those that are there. -/
theorem sheets_addSlot (g : Graph) (b : BlockId) (line : Int) :
    (g.addSlot b line).sheets = g.sheets.add .insert b :=
  sheets_addDefinition (fun x => x.sheet_push_phis _) b line _

theorem sheets_addSlots (g : Graph) (b : BlockId) (line : Int) (n : Nat) :
    (g.addSlots b line n).sheets = g.sheets.addSlots b n := by
  induction n generalizing g with
  | zero => rfl
  | succ n ih => rw [addSlots, ih, sheets_addSlot, Sheets.addSlots]

/-- A block and its sheet lack the same phis. -/
theorem sheets_reach (g : Graph) (b : BlockId) (line : Int) (depth : Nat) :
    (g.reach b line depth).sheets = g.sheets.reach b depth := by
  rw [reach, sheets_addSlots, Sheets.reach, sheet_sheets]
  rfl

/-- A call on the stack of a block asks the sheets for the entry slot that it asks the block for. -/
theorem sheets_answer (g : Graph) (b : BlockId) (c : StackCall) :
    (g.answer b c).2.sheets = ((g.block b).slotFor? c).elim g.sheets (g.sheets.reach b) := by
  have hpeek : ∀ line, (g.peek b line).2.sheets =
      ((g.block b).slotFor? (.peek line)).elim g.sheets (g.sheets.reach b) := by
    intro line
    rw [peek, Block.slotFor?]
    cases hstack : (g.block b).stack with
    | nil => exact sheets_reach g b line _
    | cons v rest => rfl
  -- a pop drops what a look has found, which is not on the sheet
  cases c with
  | push v =>
    refine sheets_modifyBlock ?_ g b
    exact fun _ => rfl
  | pop line =>
    have hdrop : ∀ x : Block, (dropTop x).sheet = x.sheet := fun x => by
      obtain ⟨stack, used, heq⟩ := exists_dropTop_eq x
      rw [heq]
      rfl
    rw [answer, pop_eq, sheets_modifyBlock hdrop, hpeek]
    rfl
  | peek line => exact hpeek line
  | entrySlot line depth => exact sheets_reach g b line depth
  | exitSlot line depth =>
    rw [answer, Block.slotFor?]
    rcases Nat.lt_or_ge depth (g.block b).stack.length with hlt | hge
    · rw [exitSlot_of_lt hlt, if_pos hlt]
      rfl
    · rw [exitSlot_of_ge hge, if_neg (Nat.not_lt_of_ge hge)]
      exact sheets_reach g b line _

/-- Edges are not on the sheets. -/
theorem sheets_connect (g : Graph) (b next : BlockId) : (g.connect b next).sheets = g.sheets := by
  rw [connect, sheets_modifyBlock, sheets_modifyBlock]
  · exact fun _ => rfl
  · exact fun _ => rfl

/-- Terminators are not on the sheets. -/
theorem sheets_terminate {line : Int} {t : Terminator} (hok : g.terminate b line t = .ok g') :
    g'.sheets = g.sheets := by
  have hfold : ∀ (targets : List BlockId) (g : Graph),
      (targets.foldl (fun g n => g.connect b n) g).sheets = g.sheets := by
    intro targets
    induction targets with
    | nil => exact fun g => rfl
    | cons n targets ih => exact fun g => (ih _).trans (g.sheets_connect b n)
  unfold terminate at hok
  split at hok
  · cases hok
  · cases hok
    rw [hfold, sheets_modifyBlock]
    exact fun _ => rfl

/-- A new block has an empty sheet. -/
theorem sheets_ensure (g : Graph) (offset : Int) :
    (g.ensure offset).2.sheets = if g.has offset then g.sheets else g.sheets.addBlock := by
  unfold ensure has
  cases g.find? offset with
  | some b => rfl
  | none => exact congrArg (Sheets.mk _) Array.map_push

/-- An operation does to the sheets of a graph what it does to its blocks. -/
theorem sheets_perform (g : Graph) (op : Operation) :
    (g.perform op).sheets = g.sheets.follow g op := by
  cases op with
  | ensure offset => exact g.sheets_ensure offset
  | remove b =>
    rw [perform]
    cases hok : g.remove b with
    | error i => rfl
    | ok g' =>
      cases remove_eq_ok hok
      rfl
  | append b line e => exact g.sheets_define b line e
  | connect b next => exact g.sheets_connect b next
  | terminate b line t =>
    rw [perform]
    cases hok : g.terminate b line t with
    | error i => rfl
    | ok g' => exact sheets_terminate hok
  | call b c => exact g.sheets_answer b c

/-- What flows into a phi is not on the sheets. -/
theorem sheets_modifyPhi (g : Graph) (v : ValueId) (f : Phi → Phi) :
    (g.modifyPhi v f).sheets = g.sheets :=
  congrArg (Sheets.mk · _) (g.size_modifyPhi v f)

/-! ## Sheets that are kept beside a graph -/

/-- The sheets that were kept beside a graph while it was made: each operation on the graph was
followed on them, and changes to phis were not. -/
inductive Recorded : Graph → Sheets → Prop
  | empty : Recorded empty .empty
  | perform {g : Graph} {S : Sheets} (h : Recorded g S) (op : Operation) :
    Recorded (g.perform op) (S.follow g op)
  | putIncoming {g : Graph} {S : Sheets} (h : Recorded g S) (v : ValueId) (b : BlockId)
    (value : Operand) : Recorded (g.putIncoming v b value) S
  | markComplete {g : Graph} {S : Sheets} (h : Recorded g S) (v : ValueId) :
    Recorded (g.markComplete v) S

namespace Recorded

/-- Sheets that were kept all along hold the code of the blocks. -/
theorem eq_sheets (h : g.Recorded S) : S = g.sheets := by
  induction h with
  | empty => simp [sheets, Sheets.empty, Graph.empty, valueCount]
  | perform _ op ih => rw [ih, sheets_perform]
  | putIncoming _ v b value ih => rw [ih, Graph.putIncoming, sheets_modifyPhi]
  | markComplete _ v ih => rw [ih, Graph.markComplete, sheets_modifyPhi]

/-- Sheets can be kept through any change to a graph. -/
theorem exists_of_oneChange (hg : g.OneChange g') (h : ∃ S, g.Recorded S) :
    ∃ S, g'.Recorded S := by
  obtain ⟨S, hS⟩ := h
  cases hg with
  | nothing => exact ⟨S, hS⟩
  | perform op => exact ⟨_, hS.perform op⟩
  | putIncoming v b value => exact ⟨S, hS.putIncoming v b value⟩
  | markComplete v => exact ⟨S, hS.markComplete v⟩

/-- Sheets can be kept through all changes to a graph. -/
theorem exists_of_leads {l : List Graph} (hl : Leads OneChange g l g') (h : ∃ S, g.Recorded S) :
    ∃ S, g'.Recorded S := hl.keep (fun _ _ => exists_of_oneChange) h

end Recorded

end Graph

end StackLift
