/-
# The bits of a set

Each operation on sets, told by the bits that are set after it, and the operations on keys where
the distance of a key from the base does not wrap around.

* `hasBit_setBit`, `hasBit_clearBit`, `hasBit_interBits`, `hasBit_fill` : one equation for each;
* `sameBits_iff` : two sets count as the same if they have the same bits;
* `mem_bits_iff`, `pairwise_bits` : the list of all bits;
* `first?_eq_none_iff`, `exists_of_first?_eq_some` : the least key;
* `contains_of_fits`, `insert_of_le`, `insert_of_lt`, `erase_of_le` : the operations on keys;
* `BitSet.Holds` : the keys of a set with base zero, and what adding and removing one does.
-/
import StackLift.BitSet

namespace StackLift.BitSet

/-! ## Words -/

/-- A word, or zero behind the last one. -/
theorem hasBit_eq (s : BitSet) (n : Nat) :
    s.hasBit n = (s.words[n / 64]?.getD 0).getLsbD (n % 64) := by
  rw [hasBit, List.getD_eq_getElem?_getD]

/-- The bits of one word of a set. -/
theorem hasBit_mul_add (s : BitSet) (i : Nat) {j : Nat} (hj : j < 64) :
    s.hasBit (64 * i + j) = (s.words[i]?.getD 0).getLsbD j := by
  rw [hasBit_eq, (by omega : (64 * i + j) / 64 = i), (by omega : (64 * i + j) % 64 = j)]

/-- Growing adds zero words only. -/
theorem getElem?_growTo (i j : Nat) (words : List (BitVec 64)) :
    (growTo i words)[j]?.getD 0 = words[j]?.getD 0 := by
  rw [growTo, List.getElem?_append]
  split
  · rfl
  · rename_i h
    rw [List.getElem?_replicate, List.getElem?_eq_none (by omega : words.length ≤ j)]
    split <;> rfl

/-- Grown words reach the index that they were grown to. -/
theorem lt_length_growTo (i : Nat) (words : List (BitVec 64)) : i < (growTo i words).length := by
  rw [growTo, List.length_append, List.length_replicate]
  omega

/-- Two places in the same word are the same if the bit is. -/
theorem decide_mod_eq {m n : Nat} (hdiv : m / 64 = n / 64) :
    decide (m % 64 = n % 64) = decide (n = m) := by
  rw [decide_eq_decide]
  constructor
  · intro hmod
    rw [← Nat.div_add_mod m 64, hdiv, hmod, Nat.div_add_mod]
  · intro h
    rw [h]

/-! ## One set -/

@[simp]
theorem hasBit_empty (base : Int) (n : Nat) : (empty base).hasBit n = false := by
  simp [hasBit, empty]

/-- Setting a bit adds it to the set. -/
theorem hasBit_setBit (s : BitSet) (m n : Nat) :
    (s.setBit m).hasBit n = (decide (n = m) || s.hasBit n) := by
  rw [hasBit_eq, hasBit_eq, setBit]
  have hlt : m / 64 < (growTo (m / 64) s.words).length := lt_length_growTo _ _
  simp only [List.getElem?_modify, Option.map_eq_map]
  by_cases hdiv : m / 64 = n / 64
  · have hword := getElem?_growTo (m / 64) (m / 64) s.words
    rw [List.getElem?_eq_getElem hlt, Option.getD_some] at hword
    rw [← hdiv, List.getElem?_eq_getElem hlt]
    simp only [if_true, Option.map_some, Option.getD_some, BitVec.getLsbD_or,
      BitVec.getLsbD_twoPow, hword, decide_mod_eq hdiv]
    rw [decide_eq_true (Nat.mod_lt m (by decide)), Bool.true_and, Bool.or_comm]
  · have hne : n ≠ m := fun h => hdiv (by rw [h])
    simp only [if_neg hdiv, Option.map_id_fun', id_eq]
    rw [getElem?_growTo, decide_eq_false hne, Bool.false_or]

/-- Clearing a bit takes it out of the set. -/
theorem hasBit_clearBit (s : BitSet) (m n : Nat) :
    (s.clearBit m).hasBit n = (s.hasBit n && decide (n ≠ m)) := by
  rw [hasBit_eq, hasBit_eq, clearBit]
  simp only [List.getElem?_modify, Option.map_eq_map]
  by_cases hdiv : m / 64 = n / 64
  · have hm : m % 64 < 64 := Nat.mod_lt m (by decide)
    have hn : n % 64 < 64 := Nat.mod_lt n (by decide)
    simp only [if_pos hdiv]
    cases hw : s.words[n / 64]? with
    | none => simp
    | some w =>
      simp only [Option.map_some, Option.getD_some, BitVec.getLsbD_and, BitVec.getLsbD_not,
        BitVec.getLsbD_twoPow, decide_mod_eq hdiv, decide_eq_true hm, decide_eq_true hn,
        Bool.true_and, ne_eq, decide_not]
  · have hne : n ≠ m := fun h => hdiv (by rw [h])
    simp only [if_neg hdiv, Option.map_id_fun', id_eq]
    rw [decide_eq_true hne, Bool.and_true]

/-- The word behind the full ones has the bits that are left over. -/
theorem getLsbD_lastWord (r j : Nat) (hr : r < 64) :
    (BitVec.allOnes 64 >>> (64 - r)).getLsbD j = decide (j < r) := by
  rw [BitVec.getLsbD_ushiftRight, BitVec.getLsbD_allOnes, decide_eq_decide]
  omega

/-- The bits of a full set are those below its size. -/
theorem hasBit_fill (base size : Int) (n : Nat) :
    (fill base size).hasBit n = decide (n < size.toNat) := by
  rw [hasBit_eq, fill, fullWords]
  generalize size.toNat = m
  have hn : n % 64 < 64 := Nat.mod_lt n (by decide)
  have hm : m % 64 < 64 := Nat.mod_lt m (by decide)
  rw [List.getElem?_append, List.length_replicate]
  -- the bit is in a full word, in the word of what is left over, or behind it
  by_cases hlt : n / 64 < m / 64
  · rw [if_pos hlt, List.getElem?_replicate, if_pos hlt, Option.getD_some,
      BitVec.getLsbD_allOnes, decide_eq_true hn, decide_eq_true (by omega)]
  · rw [if_neg hlt]
    by_cases hzero : m % 64 = 0
    · rw [if_pos hzero, List.getElem?_nil, Option.getD_none, decide_eq_false (by omega)]
      exact BitVec.getLsbD_zero
    · rw [if_neg hzero]
      by_cases heq : n / 64 = m / 64
      · rw [heq, Nat.sub_self, List.getElem?_cons_zero, Option.getD_some,
          getLsbD_lastWord _ _ hm, decide_eq_decide]
        omega
      · rw [List.getElem?_eq_none (by simp only [List.length_cons, List.length_nil]; omega),
          Option.getD_none, decide_eq_false (by omega)]
        exact BitVec.getLsbD_zero

/-! ## Two sets -/

/-- A word of the intersection. -/
theorem getElem?_interWords (xs ys : List (BitVec 64)) (i : Nat) :
    (interWords xs ys)[i]?.getD 0 = xs[i]?.getD 0 &&& ys[i]?.getD 0 := by
  induction xs, ys using interWords.induct generalizing i with
  | case1 ys => simp [interWords]
  | case2 x xs ih =>
    cases i with
    | zero => simp [interWords]
    | succ i => simpa [interWords] using ih i
  | case3 x xs y ys ih =>
    cases i with
    | zero => simp [interWords]
    | succ i => simpa [interWords] using ih i

/-- The bits of the intersection are those of both sets. -/
theorem hasBit_interBits (s t : BitSet) (n : Nat) :
    (s.interBits t).hasBit n = (s.hasBit n && t.hasBit n) := by
  rw [hasBit_eq, hasBit_eq, hasBit_eq, interBits]
  simp only [getElem?_interWords, BitVec.getLsbD_and]

/-- A word of the union. -/
theorem getElem?_unionWords (xs ys : List (BitVec 64)) (i : Nat) :
    (unionWords xs ys)[i]?.getD 0 = xs[i]?.getD 0 ||| ys[i]?.getD 0 := by
  induction xs, ys using unionWords.induct generalizing i with
  | case1 ys => simp [unionWords]
  | case2 xs h =>
    rw [unionWords.eq_2 _ h]
    simp
  | case3 x xs y ys ih =>
    cases i with
    | zero => simp [unionWords]
    | succ i => simpa [unionWords] using ih i

/-- Words are all zero if none of them differs from zero. -/
theorem all_eq_zero_iff (words : List (BitVec 64)) :
    words.all (· == 0) = true ↔ ∀ i : Nat, words[i]?.getD 0 = 0 := by
  induction words with
  | nil => simp
  | cons w ws ih =>
    rw [List.all_cons, Bool.and_eq_true, beq_iff_eq, ih]
    constructor
    · rintro ⟨hw, hws⟩ i
      cases i with
      | zero => exact hw
      | succ i => exact hws i
    · intro h
      exact ⟨h 0, fun i => h (i + 1)⟩

/-- Words are the same up to zeros at the end if they agree at every index. -/
theorem sameWords_iff (xs ys : List (BitVec 64)) :
    sameWords xs ys = true ↔ ∀ i : Nat, xs[i]?.getD 0 = ys[i]?.getD 0 := by
  induction xs, ys using sameWords.induct with
  | case1 ys =>
    rw [sameWords, all_eq_zero_iff]
    simp only [List.getElem?_nil, Option.getD_none]
    exact forall_congr' fun i => eq_comm
  | case2 xs h =>
    rw [sameWords.eq_2 _ h, all_eq_zero_iff]
    simp
  | case3 x xs y ys ih =>
    rw [sameWords, Bool.and_eq_true, beq_iff_eq, ih]
    constructor
    · rintro ⟨hx, hxs⟩ i
      cases i with
      | zero => exact hx
      | succ i => exact hxs i
    · intro h
      exact ⟨h 0, fun i => h (i + 1)⟩

/-- Two sets count as the same if they have the same bits. -/
theorem sameBits_iff (s t : BitSet) : s.sameBits t = true ↔ ∀ n, s.hasBit n = t.hasBit n := by
  rw [sameBits, sameWords_iff]
  constructor
  · intro h n
    rw [hasBit_eq, hasBit_eq, h]
  · intro h i
    apply BitVec.eq_of_getLsbD_eq
    intro j hj
    rw [← hasBit_mul_add s i hj, ← hasBit_mul_add t i hj, h]

/-! ## All bits -/

theorem mem_wordBits_iff (w : BitVec 64) (j : Nat) : j ∈ wordBits w ↔ w.getLsbD j = true := by
  unfold wordBits
  split
  · rename_i h
    subst h
    simp
  · rw [List.mem_filter, List.mem_range]
    exact ⟨And.right, fun h => ⟨BitVec.lt_of_getLsbD h, h⟩⟩

theorem mem_bitsFrom_iff (words : List (BitVec 64)) (i n : Nat) : n ∈ bitsFrom i words ↔
    64 * i ≤ n ∧ (words[n / 64 - i]?.getD 0).getLsbD (n % 64) = true := by
  induction words generalizing i with
  | nil => simp [bitsFrom]
  | cons w words ih =>
    rw [bitsFrom, List.mem_append, List.mem_map, ih]
    constructor
    · rintro (⟨j, hj, rfl⟩ | ⟨hle, hbit⟩)
      · rw [mem_wordBits_iff] at hj
        have hlt := BitVec.lt_of_getLsbD hj
        rw [(by omega : (64 * i + j) / 64 - i = 0), (by omega : (64 * i + j) % 64 = j)]
        exact ⟨by omega, hj⟩
      · rw [(by omega : n / 64 - i = (n / 64 - (i + 1)) + 1)]
        exact ⟨by omega, hbit⟩
    · rintro ⟨hle, hbit⟩
      by_cases hword : n / 64 = i
      · rw [hword, Nat.sub_self] at hbit
        exact .inl ⟨n % 64, (mem_wordBits_iff w _).2 hbit, by omega⟩
      · rw [(by omega : n / 64 - i = (n / 64 - (i + 1)) + 1)] at hbit
        exact .inr ⟨by omega, hbit⟩

/-- The bits that are listed are those that are set. -/
theorem mem_bits_iff (s : BitSet) (n : Nat) : n ∈ s.bits ↔ s.hasBit n = true := by
  rw [bits, mem_bitsFrom_iff, hasBit_eq, Nat.sub_zero]
  exact and_iff_right (Nat.zero_le _)

theorem pairwise_wordBits (w : BitVec 64) : (wordBits w).Pairwise (· < ·) := by
  unfold wordBits
  split
  · exact .nil
  · exact List.pairwise_lt_range.filter _

theorem pairwise_bitsFrom (words : List (BitVec 64)) (i : Nat) :
    (bitsFrom i words).Pairwise (· < ·) := by
  induction words generalizing i with
  | nil => exact .nil
  | cons w words ih =>
    rw [bitsFrom, List.pairwise_append]
    refine ⟨?_, ih (i + 1), ?_⟩
    · exact List.pairwise_map.2 ((pairwise_wordBits w).imp fun hab => by omega)
    · -- the bits of the first word are below those of all others
      intro a ha b hb
      obtain ⟨j, hj, rfl⟩ := List.mem_map.1 ha
      have hlt := BitVec.lt_of_getLsbD ((mem_wordBits_iff w j).1 hj)
      have hle := ((mem_bitsFrom_iff words (i + 1) b).1 hb).1
      omega

/-- The bits are listed in ascending order, each once. -/
theorem pairwise_bits (s : BitSet) : s.bits.Pairwise (· < ·) := pairwise_bitsFrom s.words 0

/-! ## The least key -/

/-- The least bit of a word. -/
theorem head?_wordBits_eq_some_iff (w : BitVec 64) (j : Nat) :
    (wordBits w).head? = some j ↔ w.getLsbD j = true ∧ ∀ k < j, w.getLsbD k = false := by
  unfold wordBits
  split
  · rename_i h
    subst h
    simp
  · rw [List.head?_filter, List.find?_range_eq_some]
    simp only [List.mem_range, Bool.not_eq_true']
    constructor
    · rintro ⟨hj, -, hlt⟩
      exact ⟨hj, hlt⟩
    · rintro ⟨hj, hlt⟩
      exact ⟨hj, BitVec.lt_of_getLsbD hj, hlt⟩

/-- A word without a least bit is zero. -/
theorem head?_wordBits_eq_none_iff (w : BitVec 64) : (wordBits w).head? = none ↔ w = 0 := by
  unfold wordBits
  split
  · rename_i h
    simp [h]
  · rename_i h
    rw [List.head?_filter, List.find?_range_eq_none]
    constructor
    · intro hall
      apply BitVec.eq_of_getLsbD_eq
      intro i hi
      simpa using hall i hi
    · intro h0
      exact absurd h0 h

/-- Words without a least bit are zero. -/
theorem firstBitFrom_eq_none_iff (i : Nat) (words : List (BitVec 64)) :
    firstBitFrom i words = none ↔ words.all (· == 0) = true := by
  induction words generalizing i with
  | nil => simp [firstBitFrom]
  | cons w ws ih =>
    rw [firstBitFrom, List.all_cons, Bool.and_eq_true, beq_iff_eq,
      ← head?_wordBits_eq_none_iff w]
    cases hw : (wordBits w).head? with
    | none => simp [ih]
    | some j => simp

/-- The least bit of words is set, and none below it is. -/
theorem firstBitFrom_eq_some {i n : Nat} {words : List (BitVec 64)}
    (h : firstBitFrom i words = some n) :
    ∃ m, n = 64 * i + m ∧ (words[m / 64]?.getD 0).getLsbD (m % 64) = true ∧
      ∀ k < m, (words[k / 64]?.getD 0).getLsbD (k % 64) = false := by
  induction words generalizing i with
  | nil => simp [firstBitFrom] at h
  | cons w ws ih =>
    rw [firstBitFrom] at h
    cases hw : (wordBits w).head? with
    | some j =>
      rw [hw] at h
      obtain ⟨hj, hlt⟩ := (head?_wordBits_eq_some_iff w j).1 hw
      have hj64 : j < 64 := BitVec.lt_of_getLsbD hj
      refine ⟨j, by simpa using h.symm, ?_, ?_⟩
      · rw [Nat.div_eq_of_lt hj64, Nat.mod_eq_of_lt hj64]
        exact hj
      · intro k hk
        rw [Nat.div_eq_of_lt (by omega), Nat.mod_eq_of_lt (by omega)]
        exact hlt k hk
    | none =>
      rw [hw] at h
      obtain ⟨m, hn, hm, hlt⟩ := ih h
      -- the first word is zero, so all places are counted from the second one on
      have hzero := (head?_wordBits_eq_none_iff w).1 hw
      refine ⟨m + 64, by omega, ?_, ?_⟩
      · rw [(by omega : (m + 64) / 64 = m / 64 + 1), (by omega : (m + 64) % 64 = m % 64)]
        exact hm
      · intro k hk
        by_cases hk64 : k < 64
        · rw [Nat.div_eq_of_lt hk64, List.getElem?_cons_zero, Option.getD_some, hzero]
          exact BitVec.getLsbD_zero
        · have hlow := hlt (k - 64) (by omega)
          rw [(by omega : k / 64 = (k - 64) / 64 + 1), (by omega : k % 64 = (k - 64) % 64)]
          exact hlow

/-- A set has no least key if it has no bits. -/
theorem first?_eq_none_iff (s : BitSet) : s.first? = none ↔ ∀ n, s.hasBit n = false := by
  rw [first?, Option.map_eq_none_iff, firstBitFrom_eq_none_iff, all_eq_zero_iff]
  constructor
  · intro h n
    rw [hasBit_eq, h]
    exact BitVec.getLsbD_zero
  · intro h i
    apply BitVec.eq_of_getLsbD_eq
    intro j hj
    rw [← hasBit_mul_add s i hj, h]
    exact BitVec.getLsbD_zero.symm

/-- The least key stands for a bit of the set, and no bit below it is set. -/
theorem exists_of_first?_eq_some {s : BitSet} {k : Int} (h : s.first? = some k) :
    ∃ n, k = s.key n ∧ s.hasBit n = true ∧ ∀ m < n, s.hasBit m = false := by
  rw [first?, Option.map_eq_some_iff] at h
  obtain ⟨n, hn, rfl⟩ := h
  obtain ⟨m, rfl, hm, hlt⟩ := firstBitFrom_eq_some hn
  refine ⟨m, by simp, ?_, ?_⟩
  · rw [hasBit_eq]
    exact hm
  · intro k hk
    rw [hasBit_eq]
    exact hlt k hk

/-! ## Keys -/

/-- Whether a key is a 64-bit integer whose distance from a base does not wrap around. -/
def KeyFits (base k : Int) : Prop := Number.isInt64 k = true ∧ Number.isInt64 (k - base) = true

instance (base k : Int) : Decidable (KeyFits base k) :=
  inferInstanceAs (Decidable (Number.isInt64 k = true ∧ Number.isInt64 (k - base) = true))

section

variable {s : BitSet} {k : Int} (hk : KeyFits s.base k)
include hk

theorem distance_of_fits : s.distance k = k - s.base := Number.wrap_of_isInt64 hk.2

/-- A key from the base on is asked for by its bit, and one below it is not there. -/
theorem contains_of_fits :
    s.contains k = .ok (decide (s.base ≤ k) && s.hasBit (k - s.base).toNat) := by
  simp only [contains, distance_of_fits hk]
  by_cases hlt : k < s.base
  · rw [if_pos hlt, decide_eq_false (Int.not_le.2 hlt), Bool.false_and]
  · have hle := Int.not_lt.1 hlt
    rw [if_neg hlt, if_pos (Int.sub_nonneg_of_le hle), decide_eq_true hle, Bool.true_and]

theorem insert_of_le (hle : s.base ≤ k) :
    s.insert k = .ok () (s.setBit (k - s.base).toNat) := by
  simp only [insert, distance_of_fits hk, if_pos (Int.sub_nonneg_of_le hle)]

/-- A key below the base is refused.  The set may grow, but by zeros only. -/
theorem insert_of_lt (hlt : k < s.base) :
    ∃ t, s.insert k = .error .outOfRange t ∧ t.base = s.base ∧ ∀ n, t.hasBit n = s.hasBit n := by
  have hneg : ¬ 0 ≤ k - s.base := by omega
  simp only [insert, distance_of_fits hk, if_neg hneg]
  refine ⟨_, rfl, ?_⟩
  split
  · refine ⟨rfl, fun n => ?_⟩
    rw [hasBit_eq, hasBit_eq, getElem?_growTo]
  · exact ⟨rfl, fun _ => rfl⟩

theorem erase_of_le (hle : s.base ≤ k) : s.erase k = .ok (s.clearBit (k - s.base).toNat) := by
  simp only [erase, distance_of_fits hk, if_neg (Int.not_lt.2 hle),
    if_pos (Int.sub_nonneg_of_le hle)]

end

/-- Whether a key is a 64-bit integer that is not negative. -/
def InRange (k : Int) : Prop := 0 ≤ k ∧ k < 9223372036854775808

theorem InRange.keyFits {k : Int} (hk : InRange k) : KeyFits 0 k := by
  have h : Number.isInt64 k = true := by
    obtain ⟨h₁, h₂⟩ := hk
    simp only [Number.isInt64, decide_eq_true_eq]
    omega
  rw [KeyFits, Int.sub_zero]
  exact ⟨h, h⟩

theorem wrap_of_inRange {k : Int} (hk : InRange k) : Number.wrap k = k :=
  Number.wrap_of_isInt64 hk.keyFits.1

/-- Membership of a key in a set with base zero. -/
def Holds (s : BitSet) (k : Int) : Prop := 0 ≤ k ∧ s.hasBit k.toNat = true

section

variable {s : BitSet} {k : Int} (hbase : s.base = 0) (hk : InRange k)
include hbase hk

theorem contains_of_inRange : s.contains k = .ok (s.hasBit k.toNat) := by
  rw [contains_of_fits (hbase ▸ hk.keyFits), hbase, Int.sub_zero, decide_eq_true hk.1,
    Bool.true_and]

theorem not_holds_of_contains (h : s.contains k = .ok false) : ¬ s.Holds k := by
  rw [contains_of_inRange hbase hk] at h
  exact fun hholds => absurd hholds.2 (by simpa using Except.ok.inj h)

theorem insert_of_inRange : s.insert k = .ok () (s.setBit k.toNat) := by
  rw [insert_of_le (hbase ▸ hk.keyFits) (hbase ▸ hk.1), hbase, Int.sub_zero]

theorem erase_of_inRange : s.erase k = .ok (s.clearBit k.toNat) := by
  rw [erase_of_le (hbase ▸ hk.keyFits) (hbase ▸ hk.1), hbase, Int.sub_zero]

end

theorem not_holds_empty (k : Int) : ¬ (empty 0).Holds k := by
  simp [Holds]

/-- Setting the bit of a key adds the key. -/
theorem holds_setBit {s : BitSet} {k : Int} (hk : 0 ≤ k) (j : Int) :
    (s.setBit k.toNat).Holds j ↔ j = k ∨ s.Holds j := by
  simp only [Holds, hasBit_setBit, Bool.or_eq_true, decide_eq_true_eq]
  constructor
  · rintro ⟨hj, h | h⟩
    · exact .inl (by omega)
    · exact .inr ⟨hj, h⟩
  · rintro (rfl | ⟨hj, h⟩)
    · exact ⟨hk, .inl rfl⟩
    · exact ⟨hj, .inr h⟩

/-- Clearing the bit of a key removes the key. -/
theorem holds_clearBit {s : BitSet} {k : Int} (hk : 0 ≤ k) (j : Int) :
    (s.clearBit k.toNat).Holds j ↔ s.Holds j ∧ j ≠ k := by
  simp only [Holds, hasBit_clearBit, Bool.and_eq_true, decide_eq_true_eq]
  constructor
  · rintro ⟨hj, h, hne⟩
    exact ⟨⟨hj, h⟩, fun h => hne (by rw [h])⟩
  · rintro ⟨⟨hj, h⟩, hne⟩
    exact ⟨hj, h, fun h => hne (by omega)⟩

/-- A set without a least key holds no key. -/
theorem not_holds_of_first?_eq_none {s : BitSet} (h : s.first? = none) (k : Int) :
    ¬ s.Holds k := by
  rintro ⟨-, hbit⟩
  rw [(first?_eq_none_iff s).1 h] at hbit
  cases hbit

/-- The least key of a set of keys in range is one of them, and none below it is. -/
theorem holds_of_first?_eq_some {s : BitSet} {k : Int} (hbase : s.base = 0)
    (hrange : ∀ j, s.Holds j → InRange j) (h : s.first? = some k) :
    s.Holds k ∧ ∀ j < k, ¬ s.Holds j := by
  obtain ⟨n, hkey, hn, hlt⟩ := exists_of_first?_eq_some h
  have hholds : s.Holds n := ⟨Int.natCast_nonneg n, by simpa using hn⟩
  -- the key is in range, so telling it from its bit does not wrap around
  have hk : k = n := by
    rw [hkey, key, hbase, Int.zero_add, wrap_of_inRange (hrange _ hholds)]
  subst hk
  refine ⟨hholds, ?_⟩
  rintro j hj ⟨hj0, hbit⟩
  rw [hlt j.toNat (by omega)] at hbit
  cases hbit

end StackLift.BitSet
