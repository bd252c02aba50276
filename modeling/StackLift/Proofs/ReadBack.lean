/-
# Compiled functions are read back

What a compiled function is handed over as consists of numbers of 64 bits, of names, and of
constants.  Names are strings, but a string constant may hold any bytes.  So what is handed over is
read back unless a string constant is no valid text, or a list is too long.

* `Listing.hasInt64_of_build` : the numbers of a listing have 64 bits;
* `Graph.Numbered.isEncodable` : what is handed over of a graph can be written;
* `Lifter.decode_of_compile` : when it is read back.
-/
import Mathlib.Data.List.Nodup
import StackLift.Proofs.Grammar
import StackLift.Proofs.Handoff
import StackLift.Proofs.Provenance
import StackLift.Proofs.RoundTrip

namespace StackLift

/-! ## The numbers of a listing -/

namespace Number

/-- A literal outside of the range of 64 bits is not read. -/
theorem isInt64_of_literal? {cs : List Char} {n : Int} (h : literal? cs = some n) :
    isInt64 n = true := by
  unfold literal? at h
  dsimp only at h
  split at h
  · cases h
  · obtain ⟨m, -, h⟩ := Option.bind_eq_some_iff.1 h
    split at h
    · rename_i hint
      cases h
      exact hint
    · cases h

end Number

/-- A constant that is a number is in the range of 64 bits. -/
theorem Constant.isInt64_of_parse {s : String} {n : Int} (h : Constant.parse s = .ok (.int n)) :
    Number.isInt64 n = true := by
  unfold Constant.parse at h
  dsimp only at h
  iterate 4
    split at h
    · cases h
  split at h
  · cases h
  · split at h <;> cases h
  · split at h
    · rename_i x hx
      cases h
      unfold number? at hx
      split at hx
      · rename_i m hm
        cases hx
        exact Number.isInt64_of_literal? hm
      · obtain ⟨x, -, hx⟩ := Option.map_eq_some_iff.1 hx
        cases hx
    · cases h

namespace Assembly

/-- The source line of a statement has 64 bits. -/
theorem Reads.isInt64 {words : List (List Char)} {n : Int} (h : Reads words (.line n)) :
    Number.isInt64 n = true := by
  cases h with
  | line h => exact h.isInt64

/-- The source line behind statements has 64 bits if all that are set have. -/
theorem isInt64_lineAfter {firstLine : Int} {ss : List Statement}
    (hline : Number.isInt64 firstLine = true)
    (h : ∀ n, .line n ∈ ss → Number.isInt64 n = true) :
    Number.isInt64 (lineAfter firstLine ss) = true := by
  unfold lineAfter
  cases hlast : (ss.filterMap Statement.line?).getLast? with
  | none => exact hline
  | some n =>
    obtain ⟨s, hs, hn⟩ := List.mem_filterMap.1 (List.mem_of_getLast? hlast)
    cases s <;> cases hn
    exact h n hs

/-- The lines of assembled instructions are in the range of 64 bits. -/
theorem isInt64_of_assemble {source : String} {firstLine : Int} {is : List Instruction}
    (hline : Number.isInt64 firstLine = true) (h : assemble source firstLine = .ok is) :
    ∀ i ∈ is, Number.isInt64 i.line = true := by
  intro i hi
  obtain ⟨ss, k, hss, hk⟩ := exists_instructionAt_of_mem h hi
  rw [hk.line]
  refine isInt64_lineAfter hline ?_
  intro n hn
  obtain ⟨words, hwords⟩ := hss.exists_reads (List.mem_of_mem_take hn)
  exact hwords.isInt64

end Assembly

/-- Whether the constants and lines of a function have 64 bits. -/
structure Code.HasInt64 (c : Code) : Prop where
  consts : ∀ n, .int n ∈ c.consts → Number.isInt64 n = true
  lines : ∀ i ∈ c.instructions, Number.isInt64 i.line = true

/-- A code has the constants that it was made with. -/
theorem Code.consts_of_make {name : String} {signature : Signature} {consts : List Constant}
    {varnames names : List String} {is : List Instruction} {c : Code}
    (h : make name signature consts varnames names is = .ok c) : c.consts = consts := by
  obtain ⟨-, -, h⟩ := exists_of_bind_eq_ok h
  dsimp only at h
  split at h
  · cases h
  · cases h
    rfl

/-- All constants of a listing are read as single ones are. -/
theorem Listing.isInt64_of_parseConstants {index : Nat} {ss : List String} {cs : List Constant}
    (h : parseConstants index ss = .ok cs) : ∀ n, .int n ∈ cs → Number.isInt64 n = true := by
  induction ss generalizing index cs with
  | nil =>
    cases h
    exact fun n hn => by cases hn
  | cons s ss ih =>
    rw [parseConstants] at h
    split at h
    · cases h
    · rename_i x hx
      obtain ⟨xs, hxs, h⟩ := exists_of_bind_eq_ok h
      cases h
      intro n hn
      rcases List.mem_cons.1 hn with rfl | hn
      · exact Constant.isInt64_of_parse hx
      · exact ih hxs n hn

/-- If the first line of a listing has 64 bits, so have all numbers of the function. -/
theorem Listing.hasInt64_of_build {l : Listing} {c : Code}
    (hline : Number.isInt64 l.firstLine = true) (h : l.build = .ok c) : c.HasInt64 := by
  obtain ⟨consts, hconsts, h⟩ := exists_of_bind_eq_ok h
  obtain ⟨is, hasm, h⟩ := exists_of_bind_eq_ok h
  have hmake := eq_ok_of_mapError_eq_ok h
  obtain ⟨rfl, -, -⟩ := Code.make_eq_ok hmake
  rw [← Code.consts_of_make hmake] at hconsts
  refine ⟨isInt64_of_parseConstants hconsts,
    Assembly.isInt64_of_assemble ?_ (eq_ok_of_mapError_eq_ok hasm)⟩
  split
  · decide
  · exact hline

/-- All lines of a code are in the range of 64 bits. -/
theorem Code.HasInt64.of_hasLine {c : Code} (h : c.HasInt64) {line : Int} (hline : c.HasLine line) :
    Number.isInt64 line = true := by
  obtain rfl | rfl | ⟨i, hi, rfl⟩ := hline
  · decide
  · exact Number.isInt64_wrap _
  · exact h.lines i hi

/-! ## What values are written as -/

/-- The length of a constant that is a string. -/
def Constant.length : Constant → Nat
  | .str t => t.length
  | _ => 0

/-- Whether the strings of a function are not too long to be written, and its arguments can be
numbered. -/
structure Code.IsStorable (c : Code) : Prop where
  name : Handoff.IsShort c.name
  args : ∀ s ∈ c.signature.args, Handoff.IsShort s
  argCount : c.signature.args.length ≤ 9223372036854775808
  names : ∀ s ∈ c.varnames ++ c.names, Handoff.IsShort s
  consts : ∀ x ∈ c.consts, Handoff.IsLength x.length

instance (c : Code) : Decidable c.IsStorable :=
  decidable_of_iff
    (Handoff.IsShort c.name ∧ (∀ s ∈ c.signature.args, Handoff.IsShort s) ∧
      c.signature.args.length ≤ 9223372036854775808 ∧
      (∀ s ∈ c.varnames ++ c.names, Handoff.IsShort s) ∧
      ∀ x ∈ c.consts, Handoff.IsLength x.length)
    ⟨fun ⟨h, h₁, h₂, h₃, h₄⟩ => ⟨h, h₁, h₂, h₃, h₄⟩,
      fun h => ⟨h.name, h.args, h.argCount, h.names, h.consts⟩⟩

namespace Handoff

open Number (isInt64)

variable {c : Code} {g : Graph} {v : ValueId} {e : Expr} {t : Terminator}

theorem isInt64_natCast {n : Nat} (h : n < 9223372036854775808) : isInt64 (n : Int) = true := by
  rw [isInt64, decide_eq_true_eq]
  omega

theorem isInt64_of_inRange {n : Int} (h : BitSet.InRange n) : isInt64 n = true := by
  rw [isInt64, decide_eq_true_eq]
  exact ⟨Int.le_trans (by decide) h.1, h.2⟩

/-- A constant of the code can be handed over. -/
theorem isConstant_datum (hint : c.HasInt64) (hc : c.IsStorable) {x : Constant}
    (hx : x ∈ c.consts) : IsConstant (datum x) := by
  cases x with
  | int n => exact hint.consts n hx
  | str t => exact hc.consts _ hx
  | _ => trivial

theorem isShort_kind : ∀ s ∈ ["", "arg", "none", "const", "global", "load", "store", "call", "phi",
    "jump", "branch", "ret", "retvoid"], IsShort s := by
  decide

theorem isShort_operator : ∀ o ∈ Operator.all, IsShort o.name := by
  decide

/-- A value without lists is written if its numbers, its strings and its constant are. -/
theorem Inst.isEncodable_of_nil {x : Inst}
    (hnumbers : ∀ n ∈ [x.id, x.line, x.num, x.value, x.calleeId, x.slot], isInt64 n = true)
    (hstrings : ∀ s ∈ [x.kind, x.name, x.callee], IsShort s) (hconst : IsConstant x.const)
    (hargs : x.args = []) (hkeywords : x.keywords = []) (hincomings : x.incomings = []) :
    x.IsEncodable := by
  refine ⟨hnumbers, hstrings, hconst, ?_, ?_, ?_, ?_⟩
  · rw [hargs]
    exact ⟨by simp, by decide⟩
  · simp [hkeywords]
  · simp [hincomings]
  · rw [hkeywords, hincomings]
    decide

/-- A value is written if its number and its line are, and all that it is made of. -/
theorem isEncodable_instOf (hint : c.HasInt64) (hc : c.IsStorable) (hid : isInt64 v = true)
    (hline : isInt64 (g.definition v).line = true) (hprovides : c.Provides (· ∈ c.consts) e)
    (hinputs : ∀ u ∈ e.inputs, isInt64 (idOf u) = true)
    (hphi : ∀ p, e = .phi p → isInt64 p.slot = true ∧ IsLength p.incomings.length ∧
      ∀ i ∈ p.incomings, isInt64 (g.offset i.block) = true) : (instOf g v e).IsEncodable := by
  have hzero : isInt64 0 = true := by decide
  cases e with
  | arg index name =>
    obtain ⟨k, rfl, hk⟩ := hprovides
    have hnum : isInt64 (k : Int) = true :=
      isInt64_natCast (Nat.lt_of_lt_of_le (List.getElem?_eq_some_iff.1 hk).1 hc.argCount)
    have hname := hc.args name (List.mem_of_getElem? hk)
    exact Inst.isEncodable_of_nil (by simp [instOf, hid, hline, hnum, hzero])
      (by simp [instOf, isShort_kind, hname]) trivial rfl rfl rfl
  | const x =>
    have hconst := isConstant_datum hint hc hprovides
    cases x <;> exact Inst.isEncodable_of_nil (by simp [instOf, hid, hline, hzero])
      (by simp [instOf, isShort_kind]) hconst rfl rfl rfl
  | global name =>
    have hname := hc.names name (List.mem_append_right _ hprovides)
    exact Inst.isEncodable_of_nil (by simp [instOf, hid, hline, hzero])
      (by simp [instOf, isShort_kind, hname]) trivial rfl rfl rfl
  | load name =>
    have hname := hc.names name (List.mem_append_left _ hprovides)
    exact Inst.isEncodable_of_nil (by simp [instOf, hid, hline, hzero])
      (by simp [instOf, isShort_kind, hname]) trivial rfl rfl rfl
  | store name value =>
    have hname := hc.names name (List.mem_append_left _ hprovides)
    have hvalue := hinputs value List.mem_cons_self
    exact Inst.isEncodable_of_nil (by simp [instOf, hid, hline, hvalue, hzero])
      (by simp [instOf, isShort_kind, hname]) trivial rfl rfl rfl
  | call callee args keywords =>
    obtain ⟨hoperator, hargs, hkeywords, hknown⟩ := hprovides
    have hlength : ∀ {n : Nat}, n < 256 → IsLength n := fun h => Nat.lt_trans h (by decide)
    have hargs' : AreInt64 (args.map idOf) := by
      refine ⟨List.forall_mem_map.2 fun u hu => ?_, ?_⟩
      · exact hinputs u (List.mem_append_left _ (List.mem_append_right _ hu))
      · rw [List.length_map]
        exact hlength hargs
    -- the name of a keyword is a constant of the function
    have hkeywords' : ∀ k ∈ keywords.map keywordOf, k.IsEncodable := by
      refine List.forall_mem_map.2 fun k hk => ⟨hc.consts _ (hknown k hk), ?_⟩
      exact hinputs k.value (List.mem_append_right _ (List.mem_map_of_mem hk))
    have hlengths : IsLength (keywords.map keywordOf).length ∧ IsLength 0 := by
      rw [List.length_map]
      exact ⟨hlength hkeywords, by decide⟩
    cases callee with
    | none =>
      exact Inst.isEncodable_of_nil (by simp [instOf, hid, hline, hzero])
        (by simp [instOf, isShort_kind]) trivial rfl rfl rfl
    | some callee =>
      cases callee with
      | operator o =>
        have hname := isShort_operator o (hoperator o rfl)
        exact ⟨by simp [instOf, hid, hline, hzero], by simp [instOf, isShort_kind, hname],
          trivial, hargs', hkeywords', by simp [instOf], hlengths⟩
      | value w =>
        have hw : isInt64 w = true := hinputs (some w)
          (List.mem_append_left _ (List.mem_append_left _ List.mem_cons_self))
        exact ⟨by simp [instOf, hid, hline, hw, hzero], by simp [instOf, isShort_kind],
          trivial, hargs', hkeywords', by simp [instOf], hlengths⟩
  | phi p =>
    obtain ⟨hslot, hlength, hblocks⟩ := hphi p rfl
    refine ⟨by simp [instOf, hid, hline, hslot, hzero], by simp [instOf, isShort_kind], trivial,
      ⟨by simp [instOf], by simp [instOf, IsLength]⟩, by simp [instOf], ?_,
      by simp [instOf, IsLength], ?_⟩
    · refine List.forall_mem_map.2 fun i hi => ⟨hblocks i hi, ?_⟩
      exact hinputs i.value (List.mem_map_of_mem hi)
    · rw [instOf, List.length_map]
      exact hlength

/-- A terminator is written if its operands and its targets are. -/
theorem isEncodable_termOf (hoperands : ∀ u ∈ t.operands, isInt64 (idOf u) = true)
    (htargets : ∀ a ∈ t.targets, isInt64 (g.offset a) = true) : (termOf g t).IsEncodable := by
  have hzero : isInt64 0 = true := by decide
  refine ⟨?_, ?_, ?_, ?_⟩
  · cases t <;> exact isShort_kind _ (by simp [termOf])
  · cases t with
    | branch cond a a' => exact hoperands cond List.mem_cons_self
    | ret v => exact hoperands v List.mem_cons_self
    | _ => exact hzero
  · rw [targets_termOf]
    exact List.forall_mem_map.2 htargets
  · cases t <;> simp [termOf, IsLength]

end Handoff

/-! ## What graphs are written as -/

theorem Terminator.nodup_eraseDups_targets (t : Terminator) : t.targets.eraseDups.Nodup := by
  cases t with
  | branch cond a a' =>
    by_cases heq : a' = a
    · simp [targets, heq, List.eraseDups_cons]
    · simp [targets, heq, Ne.symm heq, List.eraseDups_cons]
  | _ => simp [targets, List.eraseDups_cons]

/-- Whether the blocks and values of a graph that can be handed over have numbers of 64 bits. -/
structure Graph.Numbered (g : Graph) : Prop extends g.Deliverable where
  offsets : ∀ b ∈ g.live, BitSet.InRange (g.offset b)
  preds_nodup : ∀ b, (g.block b).preds.Nodup
  count : g.valueCount ≤ 9223372036854775808

namespace Graph.Numbered

open Number (isInt64)

open Handoff (IsLength AreInt64)

variable {c : Code} {g : Graph} {b : BlockId} {v : ValueId} {name : String} {args : List String}

theorem isLength_of_le {n : Nat} (h : n ≤ 9223372036854775808) : IsLength n :=
  Nat.lt_of_le_of_lt h (by decide)

theorem isInt64_offset (h : g.Numbered) (hb : b ∈ g.handedOver) : isInt64 (g.offset b) = true :=
  Handoff.isInt64_of_inRange (h.offsets b (Deliverable.mem_live_of_handedOver hb))

theorem isInt64_of_mem_code (h : g.Numbered) (hv : v ∈ (g.block b).code) :
    isInt64 (v : Nat) = true :=
  Handoff.isInt64_natCast (Nat.lt_of_lt_of_le (h.typed.lt_of_mem_code hv) h.count)

/-- A value that is supplied has a number in range. -/
theorem isInt64_of_supplies (h : g.Numbered) {u : Operand} (hu : g.Supplies u) :
    isInt64 (Handoff.idOf u) = true := by
  obtain ⟨v, a, rfl, -, hv⟩ := hu
  exact h.isInt64_of_mem_code hv

/-- There are not more blocks than offsets. -/
theorem length_handedOver_le (h : g.Numbered) : g.handedOver.length ≤ 9223372036854775808 :=
  Nat.le_trans (List.length_filter_le ..) (h.ordered.length_live_le h.offsets)

/-- Different blocks that are handed over are written as their offsets. -/
theorem areInt64_offsets (h : g.Numbered) {l : List BlockId} (hnodup : l.Nodup)
    (hl : ∀ a ∈ l, a ∈ g.handedOver) : AreInt64 (l.map g.offset) := by
  refine ⟨List.forall_mem_map.2 fun a ha => h.isInt64_offset (hl a ha), ?_⟩
  rw [List.length_map]
  exact isLength_of_le
    (Nat.le_trans (List.subperm_of_subset hnodup hl).length_le h.length_handedOver_le)

/-- A block has not more values than there are. -/
theorem length_code_le (h : g.Numbered) (b : BlockId) :
    (g.block b).code.length ≤ g.valueCount := by
  have hsub : (g.block b).code ⊆ List.range g.valueCount := fun v hv =>
    List.mem_range.2 (h.typed.lt_of_mem_code hv)
  have hle := (List.subperm_of_subset (h.typed.nodup_code b) hsub).length_le
  rwa [List.length_range] at hle

/-- The slot of a phi is its place in the block. -/
theorem isInt64_slot (h : g.Numbered) {p : Phi} (hv : v ∈ (g.block b).code)
    (hp : (g.definition v).phi? = some p) : isInt64 p.slot = true := by
  rcases mem_code_iff.1 hv with hv | hv
  · obtain ⟨k, hk⟩ := Array.mem_iff_getElem?.1 hv
    obtain ⟨-, -, q, hq, hslot⟩ := h.typed.phi b k v hk
    obtain rfl : q = p := Option.some.inj (hq.symm.trans hp)
    obtain ⟨hlt, -⟩ := Array.getElem?_eq_some_iff.1 hk
    have hle := h.length_code_le b
    rw [Block.code, List.length_append, Array.length_toList] at hle
    rw [hslot]
    exact Handoff.isInt64_natCast (by have := h.count; omega)
  · obtain ⟨k, hk⟩ := Array.mem_iff_getElem?.1 hv
    rw [(h.typed.body b k v hk).2.2] at hp
    cases hp

/-- Every instruction that is handed over can be encoded. -/
theorem isEncodable_of_mem_insts (h : g.Numbered) (hsourced : g.Sourced c) (hint : c.HasInt64)
    (hc : c.IsStorable) {x : Handoff.Inst} (hx : x ∈ (Handoff.blockOf g b).insts) :
    x.IsEncodable := by
  obtain ⟨v, hv, e, he, rfl, hinputs⟩ := h.exists_of_mem_insts hx
  refine Handoff.isEncodable_instOf hint hc (h.isInt64_of_mem_code hv)
    (hint.of_hasLine (hsourced.lines.value v)) (hsourced.exprs v e he)
    (fun u hu => h.isInt64_of_supplies (hinputs u hu)) ?_
  rintro p rfl
  have hp : (g.definition v).phi? = some p := by rw [Definition.phi?, he]
  have hblocks := h.phis b v hv p hp
  refine ⟨h.isInt64_slot hv hp, ?_, fun i hi => ?_⟩
  · -- there are as many incoming values as predecessors
    have hpreds := (h.areInt64_offsets (h.preds_nodup b) (h.preds b)).length
    rwa [← hblocks, List.length_map, List.length_map] at hpreds
  · exact h.isInt64_offset (h.preds b _ (hblocks ▸ List.mem_map_of_mem hi))

/-- Every block that is handed over can be encoded. -/
theorem isEncodable_blockOf (h : g.Numbered) (hsourced : g.Sourced c) (hint : c.HasInt64)
    (hc : c.IsStorable) (hb : b ∈ g.handedOver) : (Handoff.blockOf g b).IsEncodable := by
  obtain ⟨t, ht, hsuccs, hops⟩ := h.terminators b hb
  have htargets : ∀ a ∈ t.targets, a ∈ g.handedOver := fun a ha =>
    h.succs b a (hsuccs ▸ List.mem_eraseDups.2 ha)
  refine ⟨h.isInt64_offset hb, h.areInt64_offsets (h.preds_nodup b) (h.preds b),
    h.areInt64_offsets ?_ (h.succs b), fun x hx => h.isEncodable_of_mem_insts hsourced hint hc hx,
    ?_, ?_⟩
  · rw [hsuccs]
    exact t.nodup_eraseDups_targets
  · rw [Handoff.blockOf, List.length_map]
    exact isLength_of_le (Nat.le_trans (h.length_code_le b) h.count)
  · rw [Handoff.blockOf, ht]
    exact Handoff.isEncodable_termOf (fun u hu => h.isInt64_of_supplies (hops u hu))
      fun a ha => h.isInt64_offset (htargets a ha)

/-- What is handed over of a function with strings that are not too long can be written. -/
theorem isEncodable (h : g.Numbered) (hsourced : g.Sourced c) (hint : c.HasInt64)
    (hc : c.IsStorable) : (Handoff.functionOf c.name c.signature.args g).IsEncodable where
  name := hc.name
  args := hc.args
  blocks := List.forall_mem_map.2 fun _ hb => h.isEncodable_blockOf hsourced hint hc hb
  lengths := by
    rw [Handoff.functionOf, List.length_map]
    exact ⟨isLength_of_le hc.argCount, isLength_of_le h.length_handedOver_le⟩

end Graph.Numbered

/-- If the string constants of a function are valid texts, so are those that are handed over. -/
theorem Graph.Deliverable.isValid {c : Code} {g : Graph} (h : g.Deliverable)
    (hsourced : g.Sourced c) (name : String) (args : List String)
    (hvalid : ∀ x ∈ c.consts, Handoff.isValidConstant (Handoff.datum x) = true) :
    (Handoff.functionOf name args g).isValid = true := by
  refine List.all_eq_true.2 (List.forall_mem_map.2 fun b _ => List.all_eq_true.2 fun x hx => ?_)
  obtain ⟨v, -, e, he, rfl, -⟩ := h.exists_of_mem_insts hx
  have hprovides := hsourced.exprs v e he
  -- only constants and the names of keywords are texts, and both are constants of the function
  cases e with
  | const x => cases x <;> first | rfl | exact Bool.and_eq_true_iff.2 ⟨hvalid _ hprovides, rfl⟩
  | call callee args keywords =>
    have hkeywords : (keywords.map Handoff.keywordOf).all
        (fun k => Handoff.isValid k.name) = true :=
      List.all_eq_true.2 (List.forall_mem_map.2 fun k hk => hvalid _ (hprovides.2.2.2 k hk))
    cases callee with
    | none => rfl
    | some callee => cases callee <;> exact Bool.and_eq_true_iff.2 ⟨rfl, hkeywords⟩
  | _ => rfl

namespace Lifter

variable {c : Code} {done : List Int} {g : Graph} {s : Lifter}

/-- A lifted graph is numbered, if it has not too many values. -/
theorem Lifted.numbered (h : Lifted c done g s) (hc : c.Sound)
    (hcount : s.graph.valueCount ≤ 9223372036854775808) : s.graph.Numbered where
  toDeliverable := h.deliverable hc
  offsets b hb := by
    rw [h.offset_eq]
    exact h.traversed.inRange hc b ((h.mem_live_iff hc b).1 hb).1
  preds_nodup b := by
    rw [h.preds_eq]
    exact h.traversed.divided.wellFormed.preds_nodup b
  count := hcount

/-- A compiled function can be handed over, and is read back from its bytes unless one of its lists
is too long or one of its texts not valid; all texts are valid if the string constants are. -/
theorem decode_of_compile {l : Listing} {options : LiftOptions} (hsize : l.IsAddressable)
    (hline : Number.isInt64 l.firstLine = true) (hbuild : l.build = .ok c)
    (hstorable : c.IsStorable) (hok : compile c options = .ok () s)
    (hcount : s.graph.valueCount ≤ 9223372036854775808) :
    ∃ f, Handoff.flatten c.name c.signature.args s.graph = .ok f ∧
      Handoff.Function.decode f.encode = (if f.fits && f.isValid then some f.canonical else none) ∧
      ((∀ x ∈ c.consts, Handoff.isValidConstant (Handoff.datum x) = true) → f.isValid = true) := by
  have hc := Listing.sound_of_build hsize hbuild
  obtain ⟨-, done, g, hwalked, h⟩ := compile_ok hc hok
  have hsourced := h.sourced (hwalked.sourced hc)
  have hnumbered := h.numbered hc hcount
  refine ⟨_, hnumbered.flatten_eq _ _, ?_, hnumbered.isValid hsourced _ _⟩
  exact Handoff.Function.decode_encode_eq
    (hnumbered.isEncodable hsourced (Listing.hasInt64_of_build hline hbuild) hstorable)

end Lifter

/-- A call with a keyword, the name of which is given by its bytes. -/
def Listing.accented : Listing where
  name := "f"
  consts := ["\"\\xc3\\xa9\"", "1"]
  names := ["g"]
  code := "LOAD_GLOBAL 0\nLOAD_CONST 0\nLOAD_CONST 1\nCALL_FUNCTION 256\nRETURN_VALUE\n"

/-- The bytes are a valid text, so the call is read back. -/
theorem Lifter.decode_accented : Listing.accented.IsAddressable ∧
    Number.isInt64 Listing.accented.firstLine = true ∧
    ∃ c s f, Listing.accented.build = .ok c ∧ c.IsStorable ∧ compile c {} = .ok () s ∧
      s.graph.valueCount ≤ 9223372036854775808 ∧
      Handoff.flatten c.name c.signature.args s.graph = .ok f ∧ f.fits = true ∧
      Handoff.Function.decode f.encode = some f.canonical := by
  have hcompiles : Listing.accented.compiles {} (fun s => s.code.IsStorable ∧
      s.graph.valueCount ≤ 9223372036854775808 ∧
      (∀ x ∈ s.code.consts, Handoff.isValidConstant (Handoff.datum x) = true) ∧
      (Handoff.flatten s.code.name s.code.signature.args s.graph).toOption.any (·.fits) = true) =
        true := by
    simp only [Listing.compiles, Lifter.compile, Lifter.lift, Lift.all, Code.getElem?_index]
    decide +kernel
  obtain ⟨c, s, hbuild, hok, hcheck⟩ := Listing.exists_of_compiles hcompiles
  have hsize : Listing.accented.IsAddressable := by decide +kernel
  have hline : Number.isInt64 Listing.accented.firstLine = true := by decide
  obtain ⟨-, done, g, -, h⟩ := compile_ok (Listing.sound_of_build hsize hbuild) hok
  rw [h.code_eq] at hcheck
  obtain ⟨hstorable, hcount, hvalid, hfits⟩ := of_decide_eq_true hcheck
  obtain ⟨f, hflatten, hdecode, hisValid⟩ :=
    Lifter.decode_of_compile hsize hline hbuild hstorable hok hcount
  rw [hflatten] at hfits
  have hfits : f.fits = true := hfits
  rw [hfits, hisValid hvalid] at hdecode
  exact ⟨hsize, hline, c, s, f, hbuild, hstorable, hok, hcount, hflatten, hfits, hdecode⟩

/-- A string constant that is no valid text. -/
def Listing.garbled : Listing where
  name := "f"
  consts := ["\"\\xff\""]
  code := "LOAD_CONST 0\nRETURN_VALUE\n"

/-- It is compiled and handed over, but not read back. -/
theorem Lifter.decode_garbled : ∃ c s f, Listing.garbled.build = .ok c ∧
    compile c {} = .ok () s ∧ Handoff.flatten c.name c.signature.args s.graph = .ok f ∧
    f.fits = true ∧ Handoff.Function.decode f.encode = none := by
  have hcompiles : Listing.garbled.compiles {} (fun s =>
      (Handoff.flatten s.code.name s.code.signature.args s.graph).toOption.any fun f =>
        f.fits && (Handoff.Function.decode f.encode).isNone) = true := by
    simp only [Listing.compiles, Lifter.compile, Lifter.lift, Lift.all, Code.getElem?_index]
    decide +kernel
  obtain ⟨c, s, hbuild, hok, hcheck⟩ := Listing.exists_of_compiles hcompiles
  have hsize : Listing.garbled.IsAddressable := by decide +kernel
  have hc := Listing.sound_of_build hsize hbuild
  obtain ⟨-, done, g, -, h⟩ := compile_ok hc hok
  have hflatten := (h.deliverable hc).flatten_eq c.name c.signature.args
  rw [h.code_eq, hflatten] at hcheck
  obtain ⟨hfits, hnone⟩ := Bool.and_eq_true_iff.1 hcheck
  exact ⟨c, s, _, hbuild, hok, hflatten, hfits, Option.isNone_iff_eq_none.1 hnone⟩

end StackLift
