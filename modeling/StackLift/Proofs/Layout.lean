/-
# Code from a listing is laid out without gaps

The instructions of an assembled text stand one after the other from offset zero on, each as long
as its opcode tells, and a text has at least as many characters as its instructions take.  What
`Listing.build` accepts has in addition an instruction at each jump target.

* `LaidOut` : instructions that follow each other;
* `Code.Sound` : what is known of the code of a listing;
* `Listing.sound_of_build` : it holds of all that `Listing.build` accepts.
-/
import StackLift.Listing.Basic

namespace StackLift

/-! ## Results without an error -/

theorem exists_of_bind_eq_ok {ε α β : Type} {x : Except ε α} {f : α → Except ε β} {b : β}
    (h : x >>= f = .ok b) : ∃ a, x = .ok a ∧ f a = .ok b := by
  cases x with
  | error e => cases h
  | ok a => exact ⟨a, rfl, h⟩

theorem eq_ok_of_mapError_eq_ok {ε ε' α : Type} {x : Except ε α} {f : ε → ε'} {a : α}
    (h : x.mapError f = .ok a) : x = .ok a := by
  cases x with
  | error e => cases h
  | ok b =>
    cases h
    rfl

/-! ## Instructions that follow each other -/

/-- Whether instructions stand one after the other from an offset on, without gaps. -/
def LaidOut (offset : Int) : List Instruction → Prop
  | [] => True
  | i :: is => i.offset = offset ∧ i.next = offset + i.op.size ∧ LaidOut i.next is

namespace LaidOut

variable {o : Int} {is : List Instruction}

/-- An instruction ends behind its beginning. -/
theorem offset_lt_next (h : LaidOut o is) {i : Instruction} (hi : i ∈ is) : i.offset < i.next := by
  induction is generalizing o with
  | nil => cases hi
  | cons j js ih =>
    obtain ⟨ho, hnext, hrest⟩ := h
    rcases List.mem_cons.1 hi with rfl | hi
    · have := i.op.size_pos
      omega
    · exact ih hrest hi

/-- No instruction stands before the first one. -/
theorem le_offset (h : LaidOut o is) {i : Instruction} (hi : i ∈ is) : o ≤ i.offset := by
  induction is generalizing o with
  | nil => cases hi
  | cons j js ih =>
    obtain ⟨ho, hnext, hrest⟩ := h
    rcases List.mem_cons.1 hi with rfl | hi
    · omega
    · have := ih hrest hi
      have := j.op.size_pos
      omega

/-- An instruction ends before the next one begins. -/
theorem pairwise (h : LaidOut o is) : is.Pairwise fun i j => i.next ≤ j.offset := by
  induction is generalizing o with
  | nil => exact List.Pairwise.nil
  | cons i is ih =>
    obtain ⟨-, -, hrest⟩ := h
    exact List.Pairwise.cons (fun j hj => hrest.le_offset hj) (ih hrest)

/-- Two instructions at the same offset are the same. -/
theorem eq_of_offset_eq (h : LaidOut o is) {i j : Instruction} (hi : i ∈ is) (hj : j ∈ is)
    (heq : i.offset = j.offset) : i = j := by
  induction is generalizing o with
  | nil => cases hi
  | cons k ks ih =>
    have hk := h.offset_lt_next List.mem_cons_self
    obtain ⟨-, -, hrest⟩ := h
    rcases List.mem_cons.1 hi with rfl | hi' <;> rcases List.mem_cons.1 hj with rfl | hj'
    · rfl
    · have := hrest.le_offset hj'
      omega
    · have := hrest.le_offset hi'
      omega
    · exact ih hrest hi' hj'

/-- Two instructions with the same next offset are the same. -/
theorem eq_of_next_eq (h : LaidOut o is) {i j : Instruction} (hi : i ∈ is) (hj : j ∈ is)
    (heq : i.next = j.next) : i = j := by
  induction is generalizing o with
  | nil => cases hi
  | cons k ks ih =>
    obtain ⟨-, -, hrest⟩ := h
    rcases List.mem_cons.1 hi with rfl | hi' <;> rcases List.mem_cons.1 hj with rfl | hj'
    · rfl
    · have := hrest.le_offset hj'
      have := hrest.offset_lt_next hj'
      omega
    · have := hrest.le_offset hi'
      have := hrest.offset_lt_next hi'
      omega
    · exact ih hrest hi' hj'

/-- What stands from an instruction on is the instruction, and then what stands from the next
offset on. -/
theorem dropWhile_eq_cons (h : LaidOut o is) {i : Instruction} (hi : i ∈ is) :
    is.dropWhile (·.offset != i.offset) = i :: is.dropWhile (·.offset != i.next) := by
  induction is generalizing o with
  | nil => cases hi
  | cons j js ih =>
    have hlt := h.offset_lt_next hi
    have hj := h.offset_lt_next List.mem_cons_self
    obtain ⟨-, -, hrest⟩ := h
    rcases List.mem_cons.1 hi with rfl | hi
    · -- no gap: what stands behind the instruction begins at its next offset
      rw [List.dropWhile_cons_of_neg (by simp),
        List.dropWhile_cons_of_pos (by simp only [bne_iff_ne, ne_eq]; omega)]
      cases js with
      | nil => rfl
      | cons k ks => rw [List.dropWhile_cons_of_neg (by simp [hrest.1])]
    · have hle := hrest.le_offset hi
      rw [List.dropWhile_cons_of_pos (by simp only [bne_iff_ne, ne_eq]; omega),
        List.dropWhile_cons_of_pos (by simp only [bne_iff_ne, ne_eq]; omega)]
      exact ih hrest hi

/-- What stands from an offset on is laid out from there. -/
theorem dropWhile (h : LaidOut o is) (p : Int) :
    LaidOut p (is.dropWhile (·.offset != p)) := by
  induction is generalizing o with
  | nil => trivial
  | cons j js ih =>
    by_cases hj : j.offset = p
    · rw [List.dropWhile_cons_of_neg (by simp [hj])]
      obtain ⟨ho, hnext, hrest⟩ := h
      exact ⟨hj, by omega, hrest⟩
    · rw [List.dropWhile_cons_of_pos (by simp [hj])]
      exact ih h.2.2

end LaidOut

/-! ## The instruction at an offset -/

/-- A search that meets no instruction at an offset keeps what it found. -/
theorem foldl_instructionAt_of_not_mem (is : List Instruction) (o : Int)
    (found : Option Instruction) (h : ∀ i ∈ is, i.offset ≠ o) :
    is.foldl (fun found i => if i.offset = o then some i else found) found = found := by
  induction is generalizing found with
  | nil => rfl
  | cons i is ih =>
    rw [List.foldl_cons, if_neg (h i List.mem_cons_self)]
    exact ih _ fun j hj => h j (List.mem_cons_of_mem _ hj)

/-- The instruction at an offset is the one that stands there. -/
theorem LaidOut.instructionAt?_eq_some_iff {o : Int} {is : List Instruction} (h : LaidOut o is)
    (p : Int) (i : Instruction) :
    Code.instructionAt? is p = some i ↔ i ∈ is ∧ i.offset = p := by
  unfold Code.instructionAt?
  induction is generalizing o with
  | nil => simp
  | cons k ks ih =>
    have hlt := h.offset_lt_next List.mem_cons_self
    obtain ⟨-, -, hrest⟩ := h
    rw [List.foldl_cons]
    by_cases hk : k.offset = p
    · -- the last one found counts, and there is none behind the first
      rw [if_pos hk, foldl_instructionAt_of_not_mem _ _ _ fun j hj => ?_]
      · constructor
        · rintro ⟨⟩
          exact ⟨List.mem_cons_self, hk⟩
        · rintro ⟨hi, hp⟩
          rcases List.mem_cons.1 hi with rfl | hi
          · rfl
          · have := hrest.le_offset hi
            omega
      · have := hrest.le_offset hj
        omega
    · rw [if_neg hk, ih hrest, List.mem_cons]
      constructor
      · rintro ⟨hi, hp⟩
        exact ⟨.inr hi, hp⟩
      · rintro ⟨rfl | hi, hp⟩
        · exact absurd hp hk
        · exact ⟨hi, hp⟩

/-! ## Assembled instructions -/

namespace Assembly

/-- Whether placed instructions stand one after the other from an offset on, and end before
another one. -/
def Follow (offset last : Int) : List Placed → Prop
  | [] => offset ≤ last
  | p :: ps => p.offset = offset ∧ Follow p.next last ps

theorem Follow.mono {o last last' : Int} {ps : List Placed} (h : Follow o last ps)
    (hle : last ≤ last') : Follow o last' ps := by
  induction ps generalizing o with
  | nil => exact Int.le_trans h hle
  | cons p ps ih => exact ⟨h.1, ih h.2⟩

theorem Follow.le {o last : Int} {ps : List Placed} (h : Follow o last ps) : o ≤ last := by
  induction ps generalizing o with
  | nil => exact h
  | cons p ps ih =>
    have hsize := p.op.size_pos
    have hle := ih h.2
    rw [Placed.next, h.1] at hle
    omega

/-- Every name in the table of opcodes has at least as many characters as an instruction of the
opcode has bytes. -/
theorem size_le_length_name : ∀ e ∈ Opcode.table, (Opcode.mk e.number).size ≤ e.name.length := by
  decide +kernel

/-- A mnemonic has at least as many characters as its instruction has bytes. -/
theorem size_le_length_of_ofName? {name : String} {op : Opcode}
    (h : Opcode.ofName? name = some op) : op.size ≤ name.length := by
  unfold Opcode.ofName? at h
  obtain ⟨e, he, rfl⟩ := Option.map_eq_some_iff.1 h
  have hname : e.name = name := by simpa using List.find?_some he
  rw [← hname]
  exact size_le_length_name e (List.mem_of_find?_eq_some he)

/-- A field is not longer than the characters it is cut from. -/
theorem length_le_of_mem_fields {cs f : List Char} (h : f ∈ Text.fields cs) :
    f.length ≤ cs.length := by
  induction cs generalizing f with
  | nil => simp [Text.fields] at h
  | cons c cs ih =>
    rw [List.length_cons]
    rw [Text.fields] at h
    split at h
    · exact Nat.le_succ_of_le (ih h)
    · unfold Text.addToFields at h
      split at h
      · rename_i d ds w ws hfields
        rw [hfields] at ih
        have hw := ih List.mem_cons_self
        split at h
        · rcases List.mem_cons.1 h with rfl | h
          · simp
          · exact Nat.le_succ_of_le (ih h)
        · rcases List.mem_cons.1 h with rfl | h
          · rw [List.length_cons]
            omega
          · exact Nat.le_succ_of_le (ih (List.mem_cons_of_mem _ h))
      · rw [List.mem_singleton.1 h]
        simp

/-- The lines of a text have not more characters than the text. -/
theorem length_flatten_lines_le (cs : List Char) : (Text.lines cs).flatten.length ≤ cs.length := by
  induction cs with
  | nil => simp [Text.lines]
  | cons c cs ih =>
    rw [List.length_cons, Text.lines]
    split
    · rw [List.flatten_cons, List.nil_append]
      omega
    · split
      · rename_i l ls hlines
        rw [hlines, List.flatten_cons, List.length_append] at ih
        rw [List.flatten_cons, List.length_append, List.length_cons]
        omega
      · simp

/-- An instruction is only made of a mnemonic that names its opcode. -/
theorem ofName?_of_instructionOf {mnemonic : List Char} {operands : List (List Char)}
    {op : Opcode} {operand : Option String}
    (h : instructionOf mnemonic operands = .ok (.instruction op operand)) :
    Opcode.ofName? (String.ofList mnemonic) = some op := by
  unfold instructionOf at h
  split at h
  · cases h
  · split at h <;> cases h <;> assumption

/-- An instruction is only read from fields of which the first one names its opcode. -/
theorem ofName?_of_ofFields {first : List Char} {rest : List (List Char)} {op : Opcode}
    {operand : Option String}
    (h : Statement.ofFields (first :: rest) = .ok (.instruction op operand)) :
    Opcode.ofName? (String.ofList first) = some op := by
  simp only [Statement.ofFields] at h
  split at h
  · split at h
    · split at h <;> cases h
    · cases h
  · split at h
    · cases h
    · exact ofName?_of_instructionOf h

/-- A line with an instruction has at least as many characters as the instruction has bytes. -/
theorem size_le_length_of_parse {line : List Char} {op : Opcode} {operand : Option String}
    (h : Statement.parse line = .ok (.instruction op operand)) : op.size ≤ line.length := by
  unfold Statement.parse at h
  cases hf : Text.fields (line.takeWhile (· != '#')) with
  | nil =>
    rw [hf] at h
    cases h
  | cons first rest =>
    have hlen : first.length ≤ line.length := by
      have h₁ := length_le_of_mem_fields (by rw [hf]; exact List.mem_cons_self : first ∈ _)
      have h₂ := (List.takeWhile_sublist (l := line) (· != '#')).length_le
      omega
    rw [hf] at h
    have := size_le_length_of_ofName? (ofName?_of_ofFields h)
    rw [String.length_ofList] at this
    omega

/-- Moving over a statement keeps the place, or puts an instruction there and goes behind it. -/
theorem Cursor.advance_eq_ok {c c' : Cursor} {s : Statement} {p : Option Placed}
    (h : c.advance s = .ok (c', p)) :
    (p = none ∧ c'.offset = c.offset) ∨
      ∃ q operand, p = some q ∧ s = .instruction q.op operand ∧ q.offset = c.offset ∧
        c'.offset = q.next := by
  cases s with
  | blank =>
    cases h
    exact .inl ⟨rfl, rfl⟩
  | line n =>
    cases h
    exact .inl ⟨rfl, rfl⟩
  | label name =>
    rw [Cursor.advance] at h
    split at h
    · cases h
    · cases h
      exact .inl ⟨rfl, rfl⟩
  | instruction op operand =>
    cases h
    exact .inr ⟨_, operand, rfl, rfl, rfl, rfl⟩

/-- Placed instructions follow each other, and end where the characters are used up at the
latest. -/
theorem follow_of_place {lines : List (List Char)} {c : Cursor} {ps : List Placed}
    {labels : Labels} (h : place c lines = .ok (ps, labels)) :
    Follow c.offset (c.offset + lines.flatten.length) ps := by
  induction lines generalizing c ps with
  | nil =>
    cases h
    simp [Follow]
  | cons line lines ih =>
    rw [place] at h
    split at h
    · cases h
    · rename_i c' p hadvance
      obtain ⟨s, hs, hc'⟩ := exists_of_bind_eq_ok hadvance
      obtain ⟨⟨qs, labels'⟩, hrest, h⟩ := exists_of_bind_eq_ok h
      cases h
      have hfollow := ih hrest
      rw [List.flatten_cons, List.length_append]
      rcases Cursor.advance_eq_ok hc' with ⟨rfl, ho⟩ | ⟨q, operand, rfl, rfl, hq, ho⟩
      · rw [ho] at hfollow
        exact hfollow.mono (by omega)
      · -- the characters of the line pay for the bytes of its instruction
        have hsize := size_le_length_of_parse hs
        refine ⟨hq, ?_⟩
        rw [ho] at hfollow
        refine hfollow.mono ?_
        rw [Placed.next, hq]
        omega

/-- Resolving the operand of an instruction keeps its place and its opcode. -/
theorem Placed.resolve_eq_ok {p : Placed} {labels : Labels} {i : Instruction}
    (h : p.resolve labels = .ok i) : i.offset = p.offset ∧ i.op = p.op ∧ i.next = p.next := by
  unfold Placed.resolve at h
  split at h
  · cases h
    exact ⟨rfl, rfl, rfl⟩
  · split at h
    · cases h
      exact ⟨rfl, rfl, rfl⟩
    · cases h

/-- Resolved instructions follow each other as they were placed. -/
theorem laidOut_of_mapM {ps : List Placed} {labels : Labels} {is : List Instruction} {o last : Int}
    (hps : Follow o last ps) (h : ps.mapM (·.resolve labels) = .ok is) :
    LaidOut o is ∧ ∀ i ∈ is, i.next ≤ last := by
  induction ps generalizing o is with
  | nil =>
    cases h
    exact ⟨trivial, by simp⟩
  | cons p ps ih =>
    obtain ⟨hp, hfollow⟩ := hps
    rw [List.mapM_cons] at h
    obtain ⟨i, hres, h⟩ := exists_of_bind_eq_ok h
    obtain ⟨js, hrest, h⟩ := exists_of_bind_eq_ok h
    cases h
    obtain ⟨hoff, hop, hnext⟩ := Placed.resolve_eq_ok hres
    obtain ⟨hjs, hlast⟩ := ih hfollow hrest
    refine ⟨⟨hoff.trans hp, ?_, hnext ▸ hjs⟩, ?_⟩
    · rw [hnext, hop, Placed.next, hp]
    · intro j hj
      rcases List.mem_cons.1 hj with rfl | hj
      · rw [hnext]
        exact hfollow.le
      · exact hlast j hj

/-- The instructions of a text stand one after the other from zero on, and take up not more than
the characters of the text. -/
theorem laidOut_of_assemble {source : String} {firstLine : Int} {is : List Instruction}
    (h : assemble source firstLine = .ok is) :
    LaidOut 0 is ∧ ∀ i ∈ is, i.next ≤ source.length := by
  obtain ⟨⟨ps, labels⟩, hplace, h⟩ := exists_of_bind_eq_ok h
  obtain ⟨hout, hlast⟩ := laidOut_of_mapM (follow_of_place hplace) h
  refine ⟨hout, ?_⟩
  intro i hi
  have hlength := length_flatten_lines_le source.toList
  rw [String.length_toList] at hlength
  have hnext := hlast i hi
  rw [show (Cursor.start firstLine).offset = 0 from rfl] at hnext
  omega

end Assembly

/-! ## Labels -/

namespace Code

theorem mem_insertAscending (n m : Int) (l : List Int) :
    m ∈ insertAscending n l ↔ m = n ∨ m ∈ l := by
  induction l with
  | nil => simp [insertAscending]
  | cons k ks ih =>
    rw [insertAscending]
    split
    · simp
    · split
      · rename_i h
        simp [h]
      · rw [List.mem_cons, ih, List.mem_cons]
        exact or_left_comm

theorem pairwise_insertAscending {n : Int} {l : List Int} (h : l.Pairwise (· < ·)) :
    (insertAscending n l).Pairwise (· < ·) := by
  induction l with
  | nil => simp [insertAscending]
  | cons k ks ih =>
    obtain ⟨hk, hks⟩ := List.pairwise_cons.1 h
    rw [insertAscending]
    split
    · rename_i hlt
      refine List.Pairwise.cons ?_ h
      intro m hm
      rcases List.mem_cons.1 hm with rfl | hm
      · exact hlt
      · exact Int.lt_trans hlt (hk m hm)
    · split
      · exact h
      · refine List.Pairwise.cons ?_ (ih hks)
        intro m hm
        rcases (mem_insertAscending n m ks).1 hm with rfl | hm
        · omega
        · exact hk m hm

/-- The targets are where the jumps go. -/
theorem mem_targets_iff (is : List Instruction) (t : Int) :
    t ∈ targets is ↔ ∃ i ∈ is, i.op.isJump = true ∧ i.target = t := by
  unfold targets
  induction is with
  | nil => simp
  | cons i is ih =>
    by_cases hi : i.op.isJump = true
    · rw [List.filter_cons, if_pos hi, List.foldr_cons, mem_insertAscending, ih]
      simp only [List.mem_cons, exists_eq_or_imp, hi, true_and]
      exact or_congr_left eq_comm
    · rw [List.filter_cons, if_neg hi, ih]
      simp [hi]

/-- The targets are in ascending order. -/
theorem pairwise_targets (is : List Instruction) : (targets is).Pairwise (· < ·) := by
  unfold targets
  induction is.filter (·.op.isJump) with
  | nil => exact List.Pairwise.nil
  | cons i is ih => exact pairwise_insertAscending ih

theorem le_of_ascending {numbers : List Int} (h : numbers.Pairwise (· < ·)) {k l : Nat} {m m' : Int}
    (hkl : k ≤ l) (hm : numbers[k]? = some m) (hm' : numbers[l]? = some m') : m ≤ m' := by
  obtain ⟨hk, rfl⟩ := List.getElem?_eq_some_iff.1 hm
  obtain ⟨hl, rfl⟩ := List.getElem?_eq_some_iff.1 hm'
  rcases Nat.lt_or_eq_of_le hkl with hlt | rfl
  · exact Int.le_of_lt (List.pairwise_iff_getElem.1 h k l hk hl hlt)
  · exact Int.le_refl _

/-- In an ascending list, halving finds the place that parts the numbers below the given one from
the others. -/
theorem searchBetween_parts {numbers : List Int} (h : numbers.Pairwise (· < ·)) {n : Int}
    {low high : Nat} (hle : low ≤ high) (hhigh : high ≤ numbers.length)
    (hbelow : ∀ k m, k < low → numbers[k]? = some m → m < n)
    (habove : ∀ k m, high ≤ k → numbers[k]? = some m → n ≤ m) :
    (∀ k m, k < searchBetween numbers n low high → numbers[k]? = some m → m < n) ∧
      ∀ k m, searchBetween numbers n low high ≤ k → numbers[k]? = some m → n ≤ m := by
  fun_induction searchBetween numbers n low high with
  | case1 low high hlt middle hless ih =>
    -- all numbers up to the middle one are below
    have hmiddle : numbers[middle]? = some (numbers.getD middle 0) := by
      rw [List.getD_eq_getElem?_getD, List.getElem?_eq_getElem (by omega), Option.getD_some]
    refine ih (by omega) hhigh ?_ habove
    intro k m hk hm
    exact Int.lt_of_le_of_lt (le_of_ascending h (Nat.le_of_lt_succ hk) hm hmiddle) hless
  | case2 low high hlt middle hnot ih =>
    have hmiddle : numbers[middle]? = some (numbers.getD middle 0) := by
      rw [List.getD_eq_getElem?_getD, List.getElem?_eq_getElem (by omega), Option.getD_some]
    refine ih (by omega) (by omega) hbelow ?_
    intro k m hk hm
    exact Int.le_trans (Int.not_lt.1 hnot) (le_of_ascending h hk hmiddle hm)
  | case3 low high hnot =>
    obtain rfl : low = high := by omega
    exact ⟨hbelow, habove⟩

/-- Where the labels are in ascending order, halving finds them all. -/
theorem isLabel_iff {c : Code} (h : c.labels.Pairwise (· < ·)) (t : Int) :
    c.isLabel t = true ↔ t ∈ c.labels := by
  obtain ⟨hbelow, habove⟩ := searchBetween_parts h (n := t) (Nat.zero_le _) (Nat.le_refl _)
    (fun k m hk => absurd hk (Nat.not_lt_zero k))
    (fun k m hk hm => absurd (List.getElem?_eq_some_iff.1 hm).1 (Nat.not_lt_of_le hk))
  rw [isLabel, beq_iff_eq]
  refine ⟨List.mem_of_getElem?, fun ht => ?_⟩
  obtain ⟨k, hk⟩ := List.mem_iff_getElem?.1 ht
  have hle : searchBetween c.labels t 0 c.labels.length ≤ k :=
    Nat.le_of_not_lt fun hlt => Int.lt_irrefl t (hbelow k t hlt hk)
  have hlt := Nat.lt_of_le_of_lt hle (List.getElem?_eq_some_iff.1 hk).1
  have hfound := List.getElem?_eq_getElem hlt
  have hge := habove _ _ (Nat.le_refl _) hfound
  have hle' := le_of_ascending h hle hfound hk
  rw [hfound, Int.le_antisymm hle' hge]

/-! ## Sound code -/

/-- Code that is made has the given instructions, their targets as labels, and an instruction at
each label. -/
theorem make_eq_ok {name : String} {signature : Signature} {consts : List Constant}
    {varnames names : List String} {is : List Instruction} {c : Code}
    (h : make name signature consts varnames names is = .ok c) :
    c.instructions = is ∧ c.labels = targets c.instructions ∧
      ∀ t ∈ c.labels, (instructionAt? is t).isSome = true := by
  obtain ⟨-, -, h⟩ := exists_of_bind_eq_ok h
  dsimp only at h
  split at h
  · cases h
  · rename_i hnone
    cases h
    refine ⟨rfl, rfl, ?_⟩
    intro t ht
    simpa [Option.isSome_iff_ne_none] using List.find?_eq_none.1 hnone t ht

/-- What is known of the code of a listing. -/
structure Sound (c : Code) : Prop where
  /-- The instructions stand one after the other from zero on. -/
  laidOut : LaidOut 0 c.instructions
  /-- They end at an offset of 64 bits. -/
  inRange : ∀ i ∈ c.instructions, i.next < 9223372036854775808
  /-- The labels are the targets of the jumps. -/
  labels : c.labels = targets c.instructions
  /-- There is an instruction at every label. -/
  label_at : ∀ t ∈ c.labels, ∃ i ∈ c.instructions, i.offset = t

namespace Sound

variable {c : Code} (h : c.Sound)
include h

theorem at?_eq_some_iff (o : Int) (i : Instruction) :
    c.at? o = some i ↔ i ∈ c.instructions ∧ i.offset = o :=
  h.laidOut.instructionAt?_eq_some_iff o i

theorem at?_offset {i : Instruction} (hi : i ∈ c.instructions) : c.at? i.offset = some i :=
  (h.at?_eq_some_iff _ _).2 ⟨hi, rfl⟩

/-- The labels are in ascending order. -/
theorem pairwise_labels : c.labels.Pairwise (· < ·) := h.labels ▸ pairwise_targets _

theorem isLabel_iff (t : Int) : c.isLabel t = true ↔ t ∈ c.labels :=
  Code.isLabel_iff h.pairwise_labels t

theorem mem_labels_iff (t : Int) :
    t ∈ c.labels ↔ ∃ i ∈ c.instructions, i.op.isJump = true ∧ i.target = t := by
  rw [h.labels, mem_targets_iff]

/-- An instruction stands at an offset in range. -/
theorem offset_inRange {i : Instruction} (hi : i ∈ c.instructions) :
    0 ≤ i.offset ∧ i.offset < 9223372036854775808 := by
  have h₁ := h.laidOut.le_offset hi
  have h₂ := h.laidOut.offset_lt_next hi
  have h₃ := h.inRange i hi
  omega

theorem next_inRange {i : Instruction} (hi : i ∈ c.instructions) :
    0 < i.next ∧ i.next < 9223372036854775808 := by
  have h₁ := h.laidOut.le_offset hi
  have h₂ := h.laidOut.offset_lt_next hi
  have h₃ := h.inRange i hi
  omega

end Sound

end Code

/-! ## Listings -/

/-- Whether the code of a listing is a text that has a length of 64 bits, as every text in a
machine has. -/
def Listing.IsAddressable (l : Listing) : Prop := l.code.length < 9223372036854775808

instance (l : Listing) : Decidable l.IsAddressable := inferInstanceAs (Decidable (_ < _))

/-- The code that a listing describes is sound. -/
theorem Listing.sound_of_build {l : Listing} {c : Code} (hsize : l.IsAddressable)
    (h : l.build = .ok c) : c.Sound := by
  obtain ⟨consts, -, h⟩ := exists_of_bind_eq_ok h
  obtain ⟨is, hasm, h⟩ := exists_of_bind_eq_ok h
  obtain ⟨hout, hlast⟩ := Assembly.laidOut_of_assemble (eq_ok_of_mapError_eq_ok hasm)
  obtain ⟨rfl, hlabels, hat⟩ := Code.make_eq_ok (eq_ok_of_mapError_eq_ok h)
  refine ⟨hout, ?_, hlabels, ?_⟩
  · intro i hi
    have := hlast i hi
    unfold IsAddressable at hsize
    omega
  · intro t ht
    obtain ⟨i, hi⟩ := Option.isSome_iff_exists.1 (hat t ht)
    exact ⟨i, (hout.instructionAt?_eq_some_iff t i).1 hi⟩

end StackLift
