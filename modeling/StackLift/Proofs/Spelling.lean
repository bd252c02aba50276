/-
# Lines, words and numbers of a text

What cuts a text and reads its numbers, in the terms of the library: the lines are what
`List.splitOn` leaves, the fields are the nonempty parts that `List.splitOnP` leaves, and a decimal
number has the value that `Nat.ofDigits` gives to its digits.

* `Text.lines_eq_splitOn`, `Text.fields_eq_filter` : lines and fields;
* `Number.Spells` : how an integer of 64 bits is spelt in decimal;
* `Number.decimal_eq_ok_iff` : all such spellings are read, and nothing else.
-/
import Mathlib.Data.Nat.Digits.Defs
import Mathlib.Tactic.Ring
import StackLift.Proofs.Layout

namespace StackLift

/-! ## Lines and fields -/

namespace Text

/-- The lines of a text are its parts between line feeds. -/
theorem lines_eq_splitOn (cs : List Char) : lines cs = cs.splitOn '\n' := by
  unfold List.splitOn
  induction cs with
  | nil => rfl
  | cons c cs ih =>
    obtain ⟨l, ls, hsplit⟩ := List.exists_cons_of_ne_nil (List.splitOnP_ne_nil (· == '\n') cs)
    rw [lines, ih, List.splitOnP_cons_eq_if_modifyHead, hsplit]
    simp

/-- The fields of a text are its nonempty parts between blanks. -/
theorem fields_eq_filter (cs : List Char) :
    fields cs = (cs.splitOnP isBlank).filter (!·.isEmpty) := by
  induction cs with
  | nil => rfl
  | cons c cs ih =>
    rw [fields, List.splitOnP_cons_eq_if_modifyHead]
    split
    · rw [ih]
      rfl
    · rw [ih]
      cases cs with
      | nil => rfl
      | cons d ds =>
        -- the character goes to the front of the first part, which is empty before a blank
        obtain ⟨w, ws, hsplit⟩ := List.exists_cons_of_ne_nil (List.splitOnP_ne_nil isBlank ds)
        by_cases hd : isBlank d = true
        · cases hws : (ds.splitOnP isBlank).filter (!·.isEmpty) <;>
            simp [List.splitOnP_cons_eq_if_modifyHead, addToFields, hd, hws]
        · simp [List.splitOnP_cons_eq_if_modifyHead, addToFields, hd, hsplit]

end Text

/-! ## Decimal numbers -/

namespace Number

/-- Whether characters are decimal digits, the highest first, and have a number as their value. -/
def SpellsNat (cs : List Char) (n : Nat) : Prop :=
  ∃ ds : List Nat, ds ≠ [] ∧ (∀ d ∈ ds, d < 10) ∧ cs = ds.map Nat.digitChar ∧
    n = Nat.ofDigits 10 ds.reverse

/-- Whether characters spell an integer of 64 bits: decimal digits, with a sign before them or
not. -/
inductive Spells : List Char → Int → Prop
  | unsigned {cs : List Char} {n : Nat} (hn : SpellsNat cs n) (h : isInt64 n = true) : Spells cs n
  | plus {cs : List Char} {n : Nat} (hn : SpellsNat cs n) (h : isInt64 n = true) :
      Spells ('+' :: cs) n
  | minus {cs : List Char} {n : Nat} (hn : SpellsNat cs n) (h : isInt64 (-n) = true) :
      Spells ('-' :: cs) (-n)

theorem Spells.isInt64 {cs : List Char} {v : Int} (h : Spells cs v) : isInt64 v = true := by
  cases h <;> assumption

/-- The decimal digits are the characters of the numbers below ten. -/
theorem digitOf?_ten_eq_some_iff (c : Char) (d : Nat) :
    digitOf? 10 c = some d ↔ d < 10 ∧ c = Nat.digitChar d := by
  have hle : ∀ a b : Char, a ≤ b ↔ a.toNat ≤ b.toNat := fun _ _ => Iff.rfl
  rw [digitOf?, Option.filter_eq_some_iff, decide_eq_true_eq, digitValue?]
  constructor
  · rintro ⟨hvalue, hd⟩
    refine ⟨hd, Char.toNat_inj.1 ?_⟩
    rw [Nat.toNat_digitChar_of_lt_ten hd]
    simp only [hle, Char.reduceToNat] at hvalue
    split at hvalue
    · cases hvalue
      omega
    · split at hvalue
      · cases hvalue
        omega
      · split at hvalue
        · cases hvalue
          omega
        · cases hvalue
  · rintro ⟨hd, rfl⟩
    simp only [hle, Nat.toNat_digitChar_of_lt_ten hd, Char.reduceToNat]
    rw [if_pos (by omega)]
    exact ⟨congrArg some (by omega), hd⟩

/-- A digit behind a value is taken up by ten times the value. -/
theorem ofDigits_reverse_cons_add (m d : Nat) (ds : List Nat) :
    m * 10 ^ (d :: ds).length + Nat.ofDigits 10 (d :: ds).reverse =
      (10 * m + d) * 10 ^ ds.length + Nat.ofDigits 10 ds.reverse := by
  rw [Nat.ofDigits_reverse_cons, List.length_cons]
  ring

/-- Digits are read behind a value if they keep it a word. -/
theorem decimalAfter_eq_ok_iff {cs : List Char} {m n : Nat} (hm : m < wordCount) :
    decimalAfter m cs = .ok n ↔ n < wordCount ∧ ∃ ds : List Nat, (∀ d ∈ ds, d < 10) ∧
      cs = ds.map Nat.digitChar ∧ n = m * 10 ^ ds.length + Nat.ofDigits 10 ds.reverse := by
  induction cs generalizing m with
  | nil =>
    rw [decimalAfter, Except.ok.injEq]
    constructor
    · rintro rfl
      exact ⟨hm, [], by simp, rfl, by simp⟩
    · rintro ⟨-, ds, -, hds, rfl⟩
      obtain rfl : ds = [] := List.map_eq_nil_iff.1 hds.symm
      simp
  | cons c cs ih =>
    rw [decimalAfter]
    constructor
    · intro h
      split at h
      · cases h
      · rename_i d hdigit
        split at h
        · rename_i hlt
          obtain ⟨hd, rfl⟩ := (digitOf?_ten_eq_some_iff c d).1 hdigit
          obtain ⟨hn, ds, hds, rfl, rfl⟩ := (ih hlt).1 h
          refine ⟨hn, d :: ds, ?_, rfl, (ofDigits_reverse_cons_add m d ds).symm⟩
          intro e he
          rcases List.mem_cons.1 he with rfl | he
          · exact hd
          · exact hds e he
        · cases h
    · rintro ⟨hn, ds, hds, hcs, hvalue⟩
      cases ds with
      | nil => cases hcs
      | cons d ds =>
        obtain ⟨rfl, rfl⟩ := List.cons_eq_cons.1 hcs
        have hd := (digitOf?_ten_eq_some_iff _ d).2 ⟨hds d List.mem_cons_self, rfl⟩
        rw [ofDigits_reverse_cons_add] at hvalue
        -- no prefix of the digits has a larger value than all of them
        have hlt : 10 * m + d < wordCount := by
          have hpow : 0 < 10 ^ ds.length := Nat.pow_pos (by decide)
          have hle := Nat.le_mul_of_pos_right (10 * m + d) hpow
          omega
        simp only [hd, if_pos hlt]
        exact (ih hlt).2 ⟨hn, ds, fun e he => hds e (List.mem_cons_of_mem _ he), rfl, hvalue⟩

/-- Digits are read from the beginning if they spell a word. -/
theorem decimalAfter_zero_eq_ok_iff {cs : List Char} {n : Nat} :
    cs ≠ [] ∧ decimalAfter 0 cs = .ok n ↔ n < wordCount ∧ SpellsNat cs n := by
  rw [decimalAfter_eq_ok_iff (by decide)]
  constructor
  · rintro ⟨hcs, hn, ds, hds, rfl, rfl⟩
    exact ⟨hn, ds, fun h => hcs (by rw [h]; rfl), hds, rfl, by rw [Nat.zero_mul, Nat.zero_add]⟩
  · rintro ⟨hn, ds, hne, hds, rfl, rfl⟩
    exact ⟨fun h => hne (List.map_eq_nil_iff.1 h), hn, ds, hds, rfl,
      by rw [Nat.zero_mul, Nat.zero_add]⟩

theorem splitSign_cases (cs : List Char) :
    (∃ ds, cs = '+' :: ds ∧ splitSign cs = (false, ds)) ∨
      (∃ ds, cs = '-' :: ds ∧ splitSign cs = (true, ds)) ∨ splitSign cs = (false, cs) := by
  unfold splitSign
  split
  · exact .inl ⟨_, rfl, rfl⟩
  · exact .inr (.inl ⟨_, rfl, rfl⟩)
  · exact .inr (.inr rfl)

/-- Digits begin with no sign. -/
theorem splitSign_of_spellsNat {cs : List Char} {n : Nat} (h : SpellsNat cs n) :
    splitSign cs = (false, cs) := by
  obtain ⟨ds, hne, hds, rfl, -⟩ := h
  obtain ⟨d, ds, rfl⟩ := List.exists_cons_of_ne_nil hne
  have hd : 48 ≤ (Nat.digitChar d).toNat := by
    rw [Nat.toNat_digitChar_of_lt_ten (hds d List.mem_cons_self)]
    omega
  rcases splitSign_cases ((d :: ds).map Nat.digitChar) with ⟨cs, heq, -⟩ | ⟨cs, heq, -⟩ | hnone
  · rw [(List.cons_eq_cons.1 heq).1] at hd
    exact absurd hd (by decide)
  · rw [(List.cons_eq_cons.1 heq).1] at hd
    exact absurd hd (by decide)
  · exact hnone

/-- A number is spelt by a sign or none and the digits behind it. -/
theorem spells_iff_splitSign {cs : List Char} {v : Int} :
    Spells cs v ↔ ∃ n, SpellsNat (splitSign cs).2 n ∧ v = withSign (splitSign cs).1 n ∧
      isInt64 v = true := by
  constructor
  · intro h
    cases h with
    | unsigned hn h =>
      rw [splitSign_of_spellsNat hn]
      exact ⟨_, hn, rfl, h⟩
    | plus hn h => exact ⟨_, hn, rfl, h⟩
    | minus hn h => exact ⟨_, hn, rfl, h⟩
  · rintro ⟨n, hn, hv, h⟩
    rcases splitSign_cases cs with ⟨ds, rfl, hsign⟩ | ⟨ds, rfl, hsign⟩ | hsign
    · rw [hsign] at hn hv
      obtain rfl : v = n := hv
      exact .plus hn h
    · rw [hsign] at hn hv
      obtain rfl : v = -n := hv
      exact .minus hn h
    · rw [hsign] at hn hv
      obtain rfl : v = n := hv
      exact .unsigned hn h

/-- An integer of 64 bits has a word as its magnitude. -/
theorem lt_wordCount_of_isInt64 {negative : Bool} {n : Nat}
    (h : isInt64 (withSign negative n) = true) : n < wordCount := by
  simp only [isInt64, decide_eq_true_eq] at h
  unfold withSign at h
  simp only [wordCount]
  split at h <;> omega

/-- What is read as a decimal number is what spells an integer of 64 bits. -/
theorem decimal_eq_ok_iff {cs : List Char} {v : Int} : decimal cs = .ok v ↔ Spells cs v := by
  rw [spells_iff_splitSign, decimal]
  constructor
  · intro h
    dsimp only at h
    split at h
    · cases h
    · rename_i hempty
      obtain ⟨n, hn, h⟩ := exists_of_bind_eq_ok h
      split at h
      · rename_i hint
        cases h
        have hne : (splitSign cs).2 ≠ [] := fun h => hempty (by rw [h]; rfl)
        exact ⟨n, (decimalAfter_zero_eq_ok_iff.1 ⟨hne, hn⟩).2, rfl, hint⟩
      · cases h
  · rintro ⟨n, hn, rfl, hint⟩
    obtain ⟨hne, hok⟩ := decimalAfter_zero_eq_ok_iff.2 ⟨lt_wordCount_of_isInt64 hint, hn⟩
    dsimp only
    rw [if_neg (by rwa [List.isEmpty_iff]), hok]
    exact if_pos hint

end Number

end StackLift
