/-
# Assembled code is linked

An assembled text stands without gaps and has valid opcodes only, so of the checks that make a
function of it just one can fail: a jump has to go to an instruction.  In the function instructions
are found by their offsets and labels by halving.

* `Assembly.isValid_of_assemble` : a mnemonic names a valid opcode;
* `Code.checkLinks_of_laidOut` : what is laid out is linked;
* `Code.WellLinked` : how the instructions and labels of a function are found;
* `Listing.build_exact` : a listing is refused for its jumps only, and is well linked otherwise.
-/
import StackLift.Proofs.Grammar

namespace StackLift

/-! ## Valid opcodes -/

namespace Assembly

/-- Every row of the table is that of a valid opcode. -/
theorem isValid_of_mem_table : ∀ e ∈ Opcode.table, (Opcode.mk e.number).isValid = true := by
  decide +kernel

/-- An instruction has the opcode of its mnemonic. -/
theorem Reads.isValid {words : List (List Char)} {op : Opcode} {operand : Option String}
    (h : Reads words (.instruction op operand)) : op.isValid = true := by
  cases h with
  | plain he _ => exact isValid_of_mem_table _ he
  | applied he _ _ => exact isValid_of_mem_table _ he

/-- The opcodes of an assembled text are valid. -/
theorem isValid_of_assemble {source : String} {firstLine : Int} {is : List Instruction}
    (h : assemble source firstLine = .ok is) : ∀ i ∈ is, i.op.isValid = true := by
  intro i hi
  obtain ⟨ss, k, hss, hk⟩ := exists_instructionAt_of_mem h hi
  obtain ⟨operand, hat, -⟩ := hk.operand
  obtain ⟨words, hwords⟩ := hss.exists_reads (List.mem_of_getElem? hat)
  exact hwords.isValid

end Assembly

/-! ## Links -/

namespace Code

/-- Valid instructions that stand one after the other are linked. -/
theorem checkLinks_of_laidOut {o : Int} {is : List Instruction} (h : LaidOut o is)
    (hvalid : ∀ i ∈ is, i.op.isValid = true) {expected : Option Int}
    (hexpected : ∀ next, expected = some next → next = o) : checkLinks expected is = .ok () := by
  induction is generalizing o expected with
  | nil => rfl
  | cons i is ih =>
    obtain ⟨ho, -, hrest⟩ := h
    have hfilter : expected.filter (· ≠ i.offset) = none := by
      rw [Option.filter_eq_none_iff]
      intro next hnext
      simp [hexpected next hnext, ho]
    have hlink : linkError? expected i = none := by
      rw [linkError?, hfilter]
      exact if_pos (hvalid i List.mem_cons_self)
    rw [checkLinks, hlink]
    exact ih hrest (fun j hj => hvalid j (List.mem_cons_of_mem _ hj)) fun next hnext =>
      (Option.some.inj hnext).symm

/-- Valid instructions that stand one after the other are a function, unless a jump goes to none
of them. -/
theorem make_of_laidOut {o : Int} {is : List Instruction} (h : LaidOut o is)
    (hvalid : ∀ i ∈ is, i.op.isValid = true) (name : String) (signature : Signature)
    (consts : List Constant) (varnames names : List String) :
    (∃ t ∈ targets is, (∀ j ∈ is, j.offset ≠ t) ∧
        make name signature consts varnames names is = .error (.badTarget t)) ∨
      (∀ t ∈ targets is, ∃ j ∈ is, j.offset = t) ∧
        make name signature consts varnames names is =
          .ok ⟨name, signature, consts, varnames, names, is, targets is⟩ := by
  have hlinks : checkLinks none is = .ok () := checkLinks_of_laidOut h hvalid nofun
  have hnone : ∀ t, (instructionAt? is t).isNone = true ↔ ∀ j ∈ is, j.offset ≠ t := by
    intro t
    simp only [Option.isNone_iff_eq_none, Option.eq_none_iff_forall_ne_some, ne_eq,
      h.instructionAt?_eq_some_iff, not_and]
  simp only [make, hlinks, bind, Except.bind]
  split
  · rename_i t hfind
    have ht := List.find?_some hfind
    exact .inl ⟨t, List.mem_of_find?_eq_some hfind, (hnone t).1 ht, rfl⟩
  · rename_i hfind
    refine .inr ⟨?_, rfl⟩
    intro t ht
    have hsome := List.find?_eq_none.1 hfind t ht
    rw [hnone] at hsome
    simpa only [not_forall, not_not, exists_prop] using hsome

/-- How the instructions and labels of a function are found by their offsets. -/
structure WellLinked (c : Code) : Prop where
  /-- The first instruction stands at zero. -/
  starts : ∀ i, c.instructions.head? = some i → i.offset = 0
  ascending : c.instructions.Pairwise fun i j => i.offset < j.offset
  labels_ascending : c.labels.Pairwise (· < ·)
  /-- The labels are the targets of the jumps. -/
  mem_labels_iff : ∀ t, t ∈ c.labels ↔ ∃ i ∈ c.instructions, i.op.isJump = true ∧ i.target = t
  isLabel_iff : ∀ o, c.isLabel o = true ↔ o ∈ c.labels
  has_iff : ∀ o, c.has o = true ↔ ∃ i ∈ c.instructions, i.offset = o
  /-- At an offset there is one instruction at the most, and it is found. -/
  at?_eq_some_iff : ∀ o i, c.at? o = some i ↔ i ∈ c.instructions ∧ i.offset = o
  label_at : ∀ t ∈ c.labels, ∃ i, c.at? t = some i

/-- Instructions that stand one after the other from zero on make a well linked function with
their targets as its labels. -/
theorem wellLinked_of_laidOut {c : Code} (h : LaidOut 0 c.instructions)
    (hlabels : c.labels = targets c.instructions)
    (hat : ∀ t ∈ c.labels, ∃ j ∈ c.instructions, j.offset = t) : c.WellLinked := by
  have hfound : ∀ o i, c.at? o = some i ↔ i ∈ c.instructions ∧ i.offset = o :=
    h.instructionAt?_eq_some_iff
  have hascending : c.labels.Pairwise (· < ·) := hlabels ▸ pairwise_targets _
  refine ⟨?_, ?_, hascending, ?_, isLabel_iff hascending, ?_, hfound, ?_⟩
  · intro i hi
    cases his : c.instructions with
    | nil =>
      rw [his] at hi
      cases hi
    | cons j js =>
      rw [his] at hi h
      cases hi
      exact h.1
  · refine h.pairwise.imp_of_mem ?_
    intro i j hi _ hle
    exact Int.lt_of_lt_of_le (h.offset_lt_next hi) hle
  · intro t
    rw [hlabels, mem_targets_iff]
  · intro o
    rw [has, Option.isSome_iff_exists]
    exact exists_congr (hfound o)
  · intro t ht
    obtain ⟨j, hj, ho⟩ := hat t ht
    exact ⟨j, (hfound t j).2 ⟨hj, ho⟩⟩

end Code

/-! ## Listings -/

/-- A listing with constants that are read and code that is assembled is refused if and only if a
jump of it goes to no instruction, and for no other reason.  Otherwise it is a well linked function
of the assembled instructions. -/
theorem Listing.build_exact {l : Listing} {consts : List Constant} {is : List Instruction}
    (hconsts : parseConstants 0 l.consts = .ok consts)
    (hasm : Assembly.assemble l.code (if l.firstLine = 0 then 1 else l.firstLine) = .ok is) :
    ((∃ e, l.build = .error e) ↔
        ∃ i ∈ is, i.op.isJump = true ∧ ∀ j ∈ is, j.offset ≠ i.target) ∧
      (∀ e, l.build = .error e → ∃ t, e = .code (.badTarget t) ∧
        (∃ i ∈ is, i.op.isJump = true ∧ i.target = t) ∧ ∀ j ∈ is, j.offset ≠ t) ∧
      ∀ c, l.build = .ok c → c.instructions = is ∧ c.WellLinked := by
  have hout := (Assembly.laidOut_of_assemble hasm).1
  have hbuild : l.build = (Code.make l.name l.signature consts (l.varnames.getD l.args) l.names
      is).mapError .code := by
    simp only [build, hconsts, hasm, bind, Except.bind, Except.mapError]
  have hmake := Code.make_of_laidOut hout (Assembly.isValid_of_assemble hasm) l.name l.signature
    consts (l.varnames.getD l.args) l.names
  rcases hmake with ⟨t, ht, hnowhere, hmake⟩ | ⟨hat, hmake⟩
  · rw [hbuild, hmake]
    obtain ⟨i, hi, hjump, rfl⟩ := (Code.mem_targets_iff is t).1 ht
    refine ⟨⟨fun _ => ⟨i, hi, hjump, hnowhere⟩, fun _ => ⟨_, rfl⟩⟩, ?_, nofun⟩
    rintro e ⟨⟩
    exact ⟨i.target, rfl, ⟨i, hi, hjump, rfl⟩, hnowhere⟩
  · rw [hbuild, hmake]
    refine ⟨⟨nofun, ?_⟩, nofun, ?_⟩
    · rintro ⟨i, hi, hjump, hnowhere⟩
      obtain ⟨j, hj, ho⟩ := hat i.target ((Code.mem_targets_iff is _).2 ⟨i, hi, hjump, rfl⟩)
      exact absurd ho (hnowhere j hj)
    · rintro c ⟨⟩
      exact ⟨rfl, Code.wellLinked_of_laidOut hout rfl hat⟩

/-- A listing with jumps of both kinds, back to the beginning and to the last instruction. -/
def Listing.looping : Listing where
  consts := ["1", "None"]
  code := "top:\nSETUP_LOOP out\nFOR_ITER out\nJUMP_ABSOLUTE top\nout:\nRETURN_VALUE"

theorem Listing.build_exact_looping :
    parseConstants 0 looping.consts = .ok [.int 1, .none] ∧
      Assembly.assemble looping.code 1 = .ok [⟨0, ⟨120⟩, 6, 1, 3⟩, ⟨3, ⟨93⟩, 3, 1, 6⟩,
        ⟨6, ⟨113⟩, 0, 1, 9⟩, ⟨9, ⟨83⟩, 0, 1, 10⟩] ∧
      ∃ c, looping.build = .ok c ∧ c.WellLinked := by
  have hconsts : parseConstants 0 looping.consts = .ok [.int 1, .none] := by decide +kernel
  have hasm : Assembly.assemble looping.code 1 = .ok [⟨0, ⟨120⟩, 6, 1, 3⟩, ⟨3, ⟨93⟩, 3, 1, 6⟩,
      ⟨6, ⟨113⟩, 0, 1, 9⟩, ⟨9, ⟨83⟩, 0, 1, 10⟩] := by decide +kernel
  have h := build_exact hconsts hasm
  refine ⟨hconsts, hasm, ?_⟩
  cases hbuild : looping.build with
  | error e => exact absurd (h.1.1 ⟨e, hbuild⟩) (by decide)
  | ok c => exact ⟨c, rfl, (h.2.2 c hbuild).2⟩

end StackLift
