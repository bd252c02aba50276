/-
# Sets of bits are finite sets of keys

Sets stand in registers, where steps make and change them one after the other.  As long as the
distances of the keys from their bases do not wrap around, the registers answer like finite sets,
however many words a set has and whatever zeros stand at its end.  A step that is refused leaves the
keys of all sets as they are.

* `KeySet` : a finite set of keys from a base on;
* `SetStep.onKeys`, `SetStep.onBits` : what a step does to finite sets, and what to sets of bits;
* `BitSet.Models` : what carries a finite set through a step;
* `SetStep.models` : what one step does, and whether it is refused;
* `BitSet.Represents` : all questions about a set are answered like those about a finite set;
* `SetStep.run_represents` : so it is after any steps.
-/
import Mathlib.Data.Finset.Card
import Mathlib.Data.Finset.Range
import Mathlib.Order.Bounds.Basic
import StackLift.Proofs.BitSet

namespace StackLift

/-! ## Steps -/

/-- A finite set of keys from a base on. -/
structure KeySet where
  base : Int
  keys : Finset Int

/-- A step that makes or changes the set in the register `r`. -/
inductive SetStep
  | make (r : Nat) (base : Int)
  | fill (r : Nat) (base n : Int)
  | copy (r x : Nat)
  | insert (r : Nat) (k : Int)
  | erase (r : Nat) (k : Int)
  | union (r x : Nat)
  | inter (r x : Nat)
  | clear (r : Nat)
  deriving DecidableEq, Repr

/-- The `n` keys from a base on. -/
def KeySet.interval (base n : Int) : KeySet :=
  ⟨base, (Finset.range n.toNat).image fun i : Nat => base + i⟩

@[simp]
theorem KeySet.base_interval (base n : Int) : (interval base n).base = base := rfl

/-- They are those that are not below the base, and below it plus `n`. -/
theorem KeySet.mem_interval_iff (base n k : Int) :
    k ∈ (interval base n).keys ↔ base ≤ k ∧ k < base + n := by
  simp only [interval, Finset.mem_image, Finset.mem_range]
  constructor
  · rintro ⟨i, hi, rfl⟩
    omega
  · intro hk
    exact ⟨(k - base).toNat, by omega, by omega⟩

namespace SetStep

/-- The register whose set a step makes or changes. -/
def register : SetStep → Nat
  | make r _ => r
  | fill r _ _ => r
  | copy r _ => r
  | insert r _ => r
  | erase r _ => r
  | union r _ => r
  | inter r _ => r
  | clear r => r

/-- The fault of a step on finite sets if it is refused, and the set in its register after it. -/
def onKeys (sets : Nat → KeySet) : SetStep → Option Fault × KeySet
  | make _ base => (none, ⟨base, ∅⟩)
  | fill _ base n => (none, .interval base n)
  | copy _ x => (none, sets x)
  | insert r k =>
    if (sets r).base ≤ k then (none, ⟨(sets r).base, Insert.insert k (sets r).keys⟩)
    else (some .outOfRange, sets r)
  | erase r k => (none, ⟨(sets r).base, (sets r).keys.erase k⟩)
  | union r x =>
    if (sets r).base = (sets x).base then (none, ⟨(sets r).base, (sets r).keys ∪ (sets x).keys⟩)
    else (some .differentBases, sets r)
  | inter r x =>
    if (sets r).base = (sets x).base then (none, ⟨(sets r).base, (sets r).keys ∩ (sets x).keys⟩)
    else (some .differentBases, sets r)
  | clear r => (none, ⟨(sets r).base, ∅⟩)

/-- A set that is put in place of another one, unless that is refused. -/
def attempt (s : BitSet) : Except Fault BitSet → Option Fault × BitSet
  | .ok t => (none, t)
  | .error f => (some f, s)

/-- The fault of adding a key, if there is one, and the set after it. -/
def outcome : EStateM.Result Fault BitSet Unit → Option Fault × BitSet
  | .ok _ s => (none, s)
  | .error f s => (some f, s)

/-- The fault of a step on sets of bits if it is refused, and the set in its register after it. -/
def onBits (sets : Nat → BitSet) : SetStep → Option Fault × BitSet
  | make _ base => (none, .empty base)
  | fill _ base n => (none, .fill base n)
  | copy _ x => (none, sets x)
  | insert r k => outcome ((sets r).insert k)
  | erase r k => attempt (sets r) ((sets r).erase k)
  | union r x => attempt (sets r) ((sets r).union (sets x))
  | inter r x => attempt (sets r) ((sets r).inter (sets x))
  | clear r => (none, (sets r).clear)

/-- The registers after a step, given what the step does. -/
def after {α : Type} (does : (Nat → α) → SetStep → Option Fault × α) (sets : Nat → α)
    (step : SetStep) : Nat → α :=
  Function.update sets step.register (does sets step).2

/-- The faults of steps one after the other, and the registers in the end. -/
def run {α : Type} (does : (Nat → α) → SetStep → Option Fault × α) (sets : Nat → α) :
    List SetStep → List (Option Fault) × (Nat → α)
  | [] => ([], sets)
  | step :: steps =>
    ((does sets step).1 :: (run does (step.after does sets) steps).1,
      (run does (step.after does sets) steps).2)

/-- Whether the numbers in a step are 64-bit integers and the distances of its keys from the base
do not wrap around. -/
def Fits (sets : Nat → KeySet) : SetStep → Prop
  | make _ base => Number.isInt64 base = true
  | fill _ base n =>
    Number.isInt64 base = true ∧ Number.isInt64 n = true ∧ base + n ≤ 9223372036854775808
  | insert r k => BitSet.KeyFits (sets r).base k
  | erase r k => BitSet.KeyFits (sets r).base k
  | copy _ _ => True
  | union _ _ => True
  | inter _ _ => True
  | clear _ => True

instance (sets : Nat → KeySet) (step : SetStep) : Decidable (step.Fits sets) :=
  match step with
  | make _ base => inferInstanceAs (Decidable (Number.isInt64 base = true))
  | fill _ base n => inferInstanceAs (Decidable (Number.isInt64 base = true ∧
      Number.isInt64 n = true ∧ base + n ≤ 9223372036854775808))
  | insert r k => inferInstanceAs (Decidable (BitSet.KeyFits (sets r).base k))
  | erase r k => inferInstanceAs (Decidable (BitSet.KeyFits (sets r).base k))
  | copy _ _ => isTrue trivial
  | union _ _ => isTrue trivial
  | inter _ _ => isTrue trivial
  | clear _ => isTrue trivial

/-- Whether the numbers fit in all steps that are made one after the other. -/
def AllFit (sets : Nat → KeySet) : List SetStep → Prop
  | [] => True
  | step :: steps => step.Fits sets ∧ AllFit (step.after onKeys sets) steps

instance decidableAllFit (sets : Nat → KeySet) : (steps : List SetStep) →
    Decidable (AllFit sets steps)
  | [] => isTrue trivial
  | step :: steps =>
    haveI := decidableAllFit (step.after onKeys sets) steps
    inferInstanceAs (Decidable (step.Fits sets ∧ AllFit (step.after onKeys sets) steps))

end SetStep

namespace BitSet

variable {s t : BitSet} {m p : KeySet} {k : Int}

/-! ## Sets of bits for finite sets -/

/-- Whether the bits of a set are those of the keys of a finite set, all of which have a bit. -/
structure Models (s : BitSet) (m : KeySet) : Prop where
  base_eq : s.base = m.base
  isInt64_base : Number.isInt64 m.base = true
  keys_fit : ∀ k ∈ m.keys, m.base ≤ k ∧ KeyFits m.base k
  hasBit_iff : ∀ n : Nat, s.hasBit n = true ↔ m.base + n ∈ m.keys

namespace Models

/-- A key is in a finite set if its bit is set. -/
theorem mem_iff (h : s.Models m) :
    k ∈ m.keys ↔ m.base ≤ k ∧ s.hasBit (k - m.base).toNat = true := by
  rw [h.hasBit_iff]
  constructor
  · intro hk
    have hle := (h.keys_fit k hk).1
    rw [show m.base + ((k - m.base).toNat : Int) = k by omega]
    exact ⟨hle, hk⟩
  · rintro ⟨hle, hk⟩
    rwa [show m.base + ((k - m.base).toNat : Int) = k by omega] at hk

/-- The bit of a key from the base on is not that of another one. -/
theorem toNat_eq_iff {n : Nat} (hle : m.base ≤ k) :
    n = (k - m.base).toNat ↔ m.base + (n : Int) = k := by
  omega

/-- Only the bits and the base of a set count. -/
theorem of_same (h : s.Models m) (hbase : t.base = s.base)
    (hbits : ∀ n, t.hasBit n = s.hasBit n) : t.Models m :=
  ⟨hbase.trans h.base_eq, h.isInt64_base, h.keys_fit, fun n => by rw [hbits, h.hasBit_iff]⟩

theorem empty {base : Int} (hbase : Number.isInt64 base = true) :
    (BitSet.empty base).Models ⟨base, ∅⟩ where
  base_eq := rfl
  isInt64_base := hbase
  keys_fit _ hk := absurd hk (Finset.notMem_empty _)
  hasBit_iff n := by simp

theorem fill {base n : Int} (hbase : Number.isInt64 base = true) (hn : Number.isInt64 n = true)
    (hend : base + n ≤ 9223372036854775808) :
    (BitSet.fill base n).Models (.interval base n) where
  base_eq := rfl
  isInt64_base := hbase
  keys_fit k hk := by
    rw [KeySet.mem_interval_iff] at hk
    rw [KeySet.base_interval]
    simp only [KeyFits, Number.isInt64, decide_eq_true_eq] at hbase hn ⊢
    omega
  hasBit_iff j := by
    rw [hasBit_fill, decide_eq_true_eq, KeySet.mem_interval_iff, KeySet.base_interval]
    omega

theorem setBit (h : s.Models m) (hk : KeyFits m.base k) (hle : m.base ≤ k) :
    (s.setBit (k - m.base).toNat).Models ⟨m.base, Insert.insert k m.keys⟩ where
  base_eq := h.base_eq
  isInt64_base := h.isInt64_base
  keys_fit j hj := by
    rcases Finset.mem_insert.1 hj with rfl | hj
    · exact ⟨hle, hk⟩
    · exact h.keys_fit j hj
  hasBit_iff n := by
    rw [hasBit_setBit, Bool.or_eq_true, decide_eq_true_eq, h.hasBit_iff, Finset.mem_insert,
      toNat_eq_iff hle]

theorem clearBit (h : s.Models m) (hle : m.base ≤ k) :
    (s.clearBit (k - m.base).toNat).Models ⟨m.base, m.keys.erase k⟩ where
  base_eq := h.base_eq
  isInt64_base := h.isInt64_base
  keys_fit j hj := h.keys_fit j (Finset.mem_of_mem_erase hj)
  hasBit_iff n := by
    rw [hasBit_clearBit, Bool.and_eq_true, decide_eq_true_eq, h.hasBit_iff, Finset.mem_erase,
      ne_eq, toNat_eq_iff hle, and_comm]

/-- A set of the same base whose bits are those of one of two sets stands for their union. -/
theorem union (h : s.Models m) (ht : t.Models p) (hbase : m.base = p.base) :
    (⟨s.base, unionWords s.words t.words⟩ : BitSet).Models ⟨m.base, m.keys ∪ p.keys⟩ where
  base_eq := h.base_eq
  isInt64_base := h.isInt64_base
  keys_fit k hk := by
    rcases Finset.mem_union.1 hk with hk | hk
    · exact h.keys_fit k hk
    · exact hbase ▸ ht.keys_fit k hk
  hasBit_iff n := by
    rw [Finset.mem_union, ← h.hasBit_iff, hbase, ← ht.hasBit_iff, hasBit_eq, hasBit_eq, hasBit_eq,
      getElem?_unionWords, BitVec.getLsbD_or, Bool.or_eq_true]

theorem inter (h : s.Models m) (ht : t.Models p) (hbase : m.base = p.base) :
    (s.interBits t).Models ⟨m.base, m.keys ∩ p.keys⟩ where
  base_eq := h.base_eq
  isInt64_base := h.isInt64_base
  keys_fit k hk := h.keys_fit k (Finset.mem_inter.1 hk).1
  hasBit_iff n := by
    rw [Finset.mem_inter, ← h.hasBit_iff, hbase, ← ht.hasBit_iff, hasBit_interBits,
      Bool.and_eq_true]

end Models

end BitSet

/-! ## What a step does -/

namespace SetStep

variable {bits : Nat → BitSet} {sets : Nat → KeySet}

/-- A step on sets of bits is refused if it is on finite sets, with the same fault, and leaves the
set in its register that it leaves there of finite sets. -/
theorem models (h : ∀ r, (bits r).Models (sets r)) {step : SetStep} (hfits : step.Fits sets) :
    (step.onBits bits).1 = (step.onKeys sets).1 ∧
      (step.onBits bits).2.Models (step.onKeys sets).2 := by
  cases step with
  | make r base => exact ⟨rfl, .empty hfits⟩
  | fill r base n => exact ⟨rfl, .fill hfits.1 hfits.2.1 hfits.2.2⟩
  | copy r x => exact ⟨rfl, h x⟩
  | insert r k =>
    have hr := h r
    have hk : BitSet.KeyFits (bits r).base k := hr.base_eq ▸ hfits
    rw [onBits, onKeys]
    by_cases hle : (sets r).base ≤ k
    · rw [BitSet.insert_of_le hk (hr.base_eq ▸ hle), if_pos hle, hr.base_eq]
      exact ⟨rfl, hr.setBit hfits hle⟩
    · -- the set may have grown, but its bits are the same
      obtain ⟨t, ht, hbase, hbits⟩ :=
        BitSet.insert_of_lt hk (hr.base_eq ▸ Int.not_le.1 hle)
      rw [ht, if_neg hle]
      exact ⟨rfl, hr.of_same hbase hbits⟩
  | erase r k =>
    have hr := h r
    have hk : BitSet.KeyFits (bits r).base k := hr.base_eq ▸ hfits
    rw [onBits, onKeys]
    by_cases hle : (sets r).base ≤ k
    · rw [BitSet.erase_of_le hk (hr.base_eq ▸ hle), hr.base_eq]
      exact ⟨rfl, hr.clearBit hle⟩
    · -- below the base there is nothing to remove, on either side
      have hnot : k ∉ (sets r).keys := fun hmem => hle (hr.keys_fit k hmem).1
      have hlt : k < (bits r).base := hr.base_eq ▸ Int.not_le.1 hle
      rw [BitSet.erase, if_pos hlt, Finset.erase_eq_of_notMem hnot]
      exact ⟨rfl, hr⟩
  | union r x =>
    rw [onBits, onKeys, BitSet.union, BitSet.sameBase, (h r).base_eq, (h x).base_eq]
    by_cases hbase : (sets r).base = (sets x).base
    · rw [if_pos hbase, if_pos hbase, ← (h r).base_eq]
      exact ⟨rfl, (h r).base_eq ▸ (h r).union (h x) hbase⟩
    · rw [if_neg hbase, if_neg hbase]
      exact ⟨rfl, h r⟩
  | inter r x =>
    rw [onBits, onKeys, BitSet.inter, BitSet.sameBase, (h r).base_eq, (h x).base_eq]
    by_cases hbase : (sets r).base = (sets x).base
    · rw [if_pos hbase, if_pos hbase]
      exact ⟨rfl, (h r).inter (h x) hbase⟩
    · rw [if_neg hbase, if_neg hbase]
      exact ⟨rfl, h r⟩
  | clear r =>
    rw [onBits, onKeys, BitSet.clear, (h r).base_eq]
    exact ⟨rfl, .empty (h r).isInt64_base⟩

theorem models_after (h : ∀ r, (bits r).Models (sets r)) {step : SetStep}
    (hfits : step.Fits sets) (r : Nat) :
    (step.after onBits bits r).Models (step.after onKeys sets r) := by
  by_cases hr : r = step.register
  · rw [after, after, hr, Function.update_self, Function.update_self]
    exact (models h hfits).2
  · rw [after, after, Function.update_of_ne hr, Function.update_of_ne hr]
    exact h r

/-- Steps on sets of bits are refused where steps on finite sets are, and the registers go along
with finite sets. -/
theorem models_run (h : ∀ r, (bits r).Models (sets r)) {steps : List SetStep}
    (hfit : AllFit sets steps) :
    (run onBits bits steps).1 = (run onKeys sets steps).1 ∧
      ∀ r, ((run onBits bits steps).2 r).Models ((run onKeys sets steps).2 r) := by
  induction steps generalizing bits sets with
  | nil => exact ⟨rfl, h⟩
  | cons step steps ih =>
    obtain ⟨hfits, hrest⟩ := hfit
    obtain ⟨hfaults, hmodels⟩ := ih (models_after h hfits) hrest
    refine ⟨?_, hmodels⟩
    rw [run, run, (models h hfits).1, hfaults]

end SetStep

/-! ## Answers -/

namespace BitSet

variable {s t : BitSet} {m p : KeySet} {k : Int}

/-- What is visited ends with the first element on which `continues` fails, or is all there is. -/
theorem takeThrough_cases {α : Type} (continues : α → Bool) (l : List α) :
    (∃ front a back, l = front ++ a :: back ∧ (∀ b ∈ front, continues b = true) ∧
      continues a = false ∧ takeThrough continues l = front ++ [a]) ∨
    (∀ b ∈ l, continues b = true) ∧ takeThrough continues l = l := by
  induction l with
  | nil => exact .inr ⟨fun b hb => absurd hb List.not_mem_nil, rfl⟩
  | cons c l ih =>
    rw [takeThrough]
    by_cases hc : continues c = true
    · rw [if_pos hc]
      rcases ih with ⟨front, a, back, rfl, hfront, ha, htake⟩ | ⟨hall, htake⟩
      · refine .inl ⟨c :: front, a, back, rfl, ?_, ha, ?_⟩
        · exact List.forall_mem_cons.2 ⟨hc, hfront⟩
        · rw [htake, List.cons_append]
      · exact .inr ⟨List.forall_mem_cons.2 ⟨hc, hall⟩, by rw [htake]⟩
    · rw [if_neg hc]
      refine .inl ⟨[], c, l, rfl, ?_, Bool.eq_false_iff.2 hc, rfl⟩
      exact fun b hb => absurd hb List.not_mem_nil

/-- A key too far above the base has a negative distance. -/
theorem distance_neg (hbase : Number.isInt64 s.base = true) (hk : Number.isInt64 k = true)
    (hfar : 9223372036854775808 ≤ k - s.base) : s.distance k < 0 := by
  simp only [Number.isInt64, decide_eq_true_eq] at hbase hk
  rw [distance, Number.wrap, Int.bmod_def]
  simp only [Number.wordCount]
  omega

/-- Whether all questions about a set are answered like those about a finite set. -/
structure Represents (s : BitSet) (m : KeySet) : Prop where
  base_eq : s.base = m.base
  /-- The 64-bit integers that a set has are the keys of the finite set. -/
  setOf_contains : {k | Number.isInt64 k = true ∧ s.contains k = .ok true} = (m.keys : Set Int)
  contains_eq : ∀ k, KeyFits m.base k → s.contains k = .ok (decide (k ∈ m.keys))
  size_eq : s.size = m.keys.card
  isEmpty_iff : s.isEmpty = true ↔ m.keys = ∅
  first?_eq_some_iff : ∀ k, s.first? = some k ↔ IsLeast (m.keys : Set Int) k
  first?_eq_none : s.first? = none ↔ m.keys = ∅
  pairwise_keys : s.keys.Pairwise (· < ·)
  mem_keys_iff : ∀ k, k ∈ s.keys ↔ k ∈ m.keys
  /-- Keys are visited up to the first one on which `continues` fails. -/
  visit_cases : ∀ continues : Int → Bool,
    (∃ front k back, s.keys = front ++ k :: back ∧ (∀ j ∈ front, continues j = true) ∧
      continues k = false ∧ s.visit continues = front ++ [k]) ∨
    (∀ j ∈ s.keys, continues j = true) ∧ s.visit continues = s.keys

namespace Models

theorem contains_eq (h : s.Models m) (hk : KeyFits m.base k) :
    s.contains k = .ok (decide (k ∈ m.keys)) := by
  rw [contains_of_fits (h.base_eq ▸ hk), h.base_eq]
  congr 1
  rw [Bool.eq_iff_iff, Bool.and_eq_true, decide_eq_true_eq, decide_eq_true_eq, h.mem_iff]

/-- A key that wraps around is not in a set. -/
theorem setOf_contains (h : s.Models m) :
    {k | Number.isInt64 k = true ∧ s.contains k = .ok true} = (m.keys : Set Int) := by
  ext k
  rw [Set.mem_ofPred_eq, Finset.mem_coe]
  by_cases hk : KeyFits m.base k
  · rw [h.contains_eq hk, Except.ok.injEq, decide_eq_true_eq]
    exact and_iff_right hk.1
  · -- the distance of such a key wraps around to a negative one, where no bit is read
    refine iff_of_false ?_ fun hmem => hk (h.keys_fit k hmem).2
    rintro ⟨hint, hcontains⟩
    have hbase := h.isInt64_base
    rw [contains] at hcontains
    by_cases hlt : k < s.base
    · rw [if_pos hlt] at hcontains
      cases hcontains
    · have hneg : s.distance k < 0 := by
        refine distance_neg (h.base_eq ▸ hbase) hint ?_
        simp only [KeyFits, Number.isInt64, decide_eq_true_eq] at hk hbase hint
        rw [h.base_eq] at hlt ⊢
        omega
      rw [if_neg hlt, if_neg (Int.not_le.2 hneg)] at hcontains
      split at hcontains <;> cases hcontains

theorem keys_eq (h : s.Models m) : s.keys = s.bits.map fun n : Nat => m.base + n := by
  refine List.map_congr_left fun n hn => ?_
  have hmem := (h.hasBit_iff n).1 ((mem_bits_iff s n).1 hn)
  rw [key, h.base_eq, Number.wrap_of_isInt64 (h.keys_fit _ hmem).2.1]

theorem pairwise_keys (h : s.Models m) : s.keys.Pairwise (· < ·) := by
  rw [h.keys_eq, List.pairwise_map]
  exact s.pairwise_bits.imp fun hab => by omega

theorem mem_keys_iff (h : s.Models m) : k ∈ s.keys ↔ k ∈ m.keys := by
  rw [h.keys_eq, List.mem_map]
  constructor
  · rintro ⟨n, hn, rfl⟩
    exact (h.hasBit_iff n).1 ((mem_bits_iff s n).1 hn)
  · intro hk
    obtain ⟨hle, hbit⟩ := h.mem_iff.1 hk
    exact ⟨_, (mem_bits_iff s _).2 hbit, by omega⟩

theorem size_eq (h : s.Models m) : s.size = m.keys.card := by
  have hkeys : m.keys = s.keys.toFinset := by
    ext k
    rw [List.mem_toFinset, h.mem_keys_iff]
  have hnodup : s.keys.Nodup := h.pairwise_keys.imp fun hab => ne_of_lt hab
  rw [hkeys, List.toFinset_card_of_nodup hnodup, keys, List.length_map, size]

/-- A finite set is empty if no bit is set. -/
theorem eq_empty_iff (h : s.Models m) : m.keys = ∅ ↔ ∀ n, s.hasBit n = false := by
  rw [Finset.eq_empty_iff_forall_notMem]
  constructor
  · intro hnot n
    rw [← Bool.not_eq_true, h.hasBit_iff]
    exact hnot _
  · intro hbits k hk
    rw [h.mem_iff, hbits] at hk
    exact absurd hk.2 Bool.false_ne_true

theorem isEmpty_iff (h : s.Models m) : s.isEmpty = true ↔ m.keys = ∅ := by
  rw [h.eq_empty_iff, ← BitSet.first?_eq_none_iff, first?, Option.map_eq_none_iff,
    firstBitFrom_eq_none_iff, isEmpty]

theorem isLeast_of_first? (h : s.Models m) (hk : s.first? = some k) :
    IsLeast (m.keys : Set Int) k := by
  obtain ⟨n, rfl, hn, hlt⟩ := exists_of_first?_eq_some hk
  have hmem := (h.hasBit_iff n).1 hn
  rw [key, h.base_eq, Number.wrap_of_isInt64 (h.keys_fit _ hmem).2.1]
  refine ⟨hmem, fun j hj => ?_⟩
  obtain ⟨hle, hbit⟩ := h.mem_iff.1 (Finset.mem_coe.1 hj)
  -- a key below it would have a bit below the least one
  by_contra hnot
  rw [hlt (j - m.base).toNat (by omega)] at hbit
  cases hbit

theorem first?_eq_some_iff (h : s.Models m) :
    s.first? = some k ↔ IsLeast (m.keys : Set Int) k := by
  refine ⟨h.isLeast_of_first?, fun hleast => ?_⟩
  cases hfirst : s.first? with
  | none =>
    have hempty := h.eq_empty_iff.2 ((BitSet.first?_eq_none_iff s).1 hfirst)
    rw [hempty] at hleast
    exact absurd hleast.1 (Finset.notMem_empty k)
  | some j => rw [(h.isLeast_of_first? hfirst).unique hleast]

theorem represents (h : s.Models m) : s.Represents m where
  base_eq := h.base_eq
  setOf_contains := h.setOf_contains
  contains_eq _ hk := h.contains_eq hk
  size_eq := h.size_eq
  isEmpty_iff := h.isEmpty_iff
  first?_eq_some_iff _ := h.first?_eq_some_iff
  first?_eq_none := (BitSet.first?_eq_none_iff s).trans h.eq_empty_iff.symm
  pairwise_keys := h.pairwise_keys
  mem_keys_iff _ := h.mem_keys_iff
  visit_cases continues := takeThrough_cases continues s.keys

/-- Sets are the same, whatever zeros stand at their ends, if they have the same keys. -/
theorem equal_eq (h : s.Models m) (ht : t.Models p) : s.equal t =
    if m.base = p.base then .ok (decide (m.keys = p.keys)) else .error .differentBases := by
  rw [equal, sameBase, h.base_eq, ht.base_eq]
  by_cases hbase : m.base = p.base
  · rw [if_pos hbase, if_pos hbase]
    congr 1
    rw [Bool.eq_iff_iff, decide_eq_true_eq, sameBits_iff]
    constructor
    · intro hbits
      ext k
      rw [h.mem_iff, ht.mem_iff, hbits, hbase]
    · intro hkeys n
      rw [Bool.eq_iff_iff, h.hasBit_iff, ht.hasBit_iff, hkeys, hbase]
  · rw [if_neg hbase, if_neg hbase]

end Models

end BitSet

/-! ## All steps -/

namespace SetStep

/-- The faults of steps on sets of bits, which are empty at first, and the sets in the end. -/
def runOnBits (steps : List SetStep) : List (Option Fault) × (Nat → BitSet) :=
  run onBits (fun _ => .empty 0) steps

/-- The faults of steps on finite sets, which are empty at first, and the sets in the end. -/
def runOnKeys (steps : List SetStep) : List (Option Fault) × (Nat → KeySet) :=
  run onKeys (fun _ => ⟨0, ∅⟩) steps

/-- Whatever steps were made, sets of bits answer all questions like finite sets: the same steps
are refused, with the same faults, and every register represents the finite set that comes of those
that were not. -/
theorem run_represents (steps : List SetStep) (hfit : AllFit (fun _ => ⟨0, ∅⟩) steps) :
    (runOnBits steps).1 = (runOnKeys steps).1 ∧
    (∀ r, ((runOnBits steps).2 r).Represents ((runOnKeys steps).2 r)) ∧
    ∀ r x, ((runOnBits steps).2 r).equal ((runOnBits steps).2 x) =
      if ((runOnKeys steps).2 r).base = ((runOnKeys steps).2 x).base then
        .ok (decide (((runOnKeys steps).2 r).keys = ((runOnKeys steps).2 x).keys))
      else .error .differentBases := by
  have hstart : ∀ _ : Nat, (BitSet.empty 0).Models ⟨0, ∅⟩ := fun _ => .empty rfl
  obtain ⟨hfaults, hmodels⟩ := models_run hstart hfit
  exact ⟨hfaults, fun r => (hmodels r).represents, fun r x => (hmodels r).equal_eq (hmodels x)⟩

/-- Keys on both sides of the end of a word.  A key below the base is refused, once by a set that
has words and once by one that has none, and so is a set of another base.  In the end a set has
words that are zero. -/
def crossing : List SetStep :=
  [.make 0 (-5), .insert 0 58, .insert 0 59, .insert 0 300, .insert 0 (-6), .copy 1 0,
    .erase 1 300, .fill 2 (-5) 65, .inter 0 2, .insert 3 (-1), .union 0 3]

theorem run_represents_crossing : AllFit (fun _ => ⟨0, ∅⟩) crossing ∧
    (runOnBits crossing).1 = [none, none, none, none, some .outOfRange, none, none, none, none,
      some .outOfRange, some .differentBases] ∧
    ((runOnBits crossing).2 0).words.length = 5 ∧
    ((runOnBits crossing).2 0).Represents ⟨-5, {58, 59}⟩ ∧
    ((runOnBits crossing).2 2).Represents (.interval (-5) 65) ∧
    ((runOnBits crossing).2 3).Represents ⟨0, ∅⟩ ∧
    ((runOnBits crossing).2 0).equal ((runOnBits crossing).2 1) = .ok true := by
  have hfit : AllFit (fun _ => ⟨0, ∅⟩) crossing := by decide
  obtain ⟨hfaults, hsets, hequal⟩ := run_represents crossing hfit
  have h₀ : (runOnKeys crossing).2 0 = ⟨-5, {58, 59}⟩ := congrArg (KeySet.mk (-5)) (by decide)
  have h₁ : (runOnKeys crossing).2 1 = ⟨-5, {58, 59}⟩ := congrArg (KeySet.mk (-5)) (by decide)
  refine ⟨hfit, hfaults.trans (by decide), by decide, h₀ ▸ hsets 0, hsets 2, hsets 3, ?_⟩
  rw [hequal, h₀, h₁]
  rfl

end SetStep

end StackLift
