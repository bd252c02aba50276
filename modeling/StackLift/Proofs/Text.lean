/-
# Texts that are strings

The bytes of a string spell the string, and nothing is left over between its characters.

* `Text.charAt?_utf8EncodeChar` : the bytes of a character spell it;
* `Text.toString?_ofString` : the bytes of a string spell the string.
-/
import StackLift.Text.Basic

namespace StackLift.Text

/-! ## Characters -/

/-- A number below 256 is kept by its byte. -/
theorem toNat_ofNat {n : Nat} (h : n < 256) : (UInt8.ofNat n).toNat = n := by
  rw [UInt8.toNat_ofNat', Nat.mod_eq_of_lt h]

theorem ofNat_lt_ofNat_iff {m n : Nat} (hm : m < 256) (hn : n < 256) :
    UInt8.ofNat m < UInt8.ofNat n ↔ m < n := by
  rw [UInt8.lt_iff_toNat_lt, toNat_ofNat hm, toNat_ofNat hn]

/-- A byte that continues a character adds its last six bits. -/
theorem tailBits?_ofNat {n : Nat} (h : n < 64) : tailBits? (UInt8.ofNat (n + 128)) = some n := by
  unfold tailBits?
  rw [if_pos, toNat_ofNat (by omega)]
  · exact congrArg some (Nat.add_sub_cancel ..)
  · constructor
    · apply UInt8.not_lt.1
      show ¬ UInt8.ofNat (n + 128) < UInt8.ofNat 128
      rw [ofNat_lt_ofNat_iff] <;> omega
    · show UInt8.ofNat (n + 128) < UInt8.ofNat 192
      rw [ofNat_lt_ofNat_iff] <;> omega

theorem scalar?_toNat (c : Char) {least : Nat} (h : least ≤ c.toNat) :
    scalar? least c.toNat = some c := by
  unfold scalar?
  rw [if_pos ⟨h, c.valid⟩, Char.ofNat_toNat]

section

variable {n n₁ n₂ n₃ : Nat} (rest : Text)

theorem charAt?_one (h : n < 128) : charAt? (UInt8.ofNat n :: rest) = some (Char.ofNat n) := by
  show (if UInt8.ofNat n < UInt8.ofNat 128 then _ else _) = _
  rw [if_pos ((ofNat_lt_ofNat_iff (by omega) (by omega)).2 h), toNat_ofNat (by omega)]

/-- A first byte that announces one more. -/
theorem charAt?_two (h : n < 32) (h₁ : n₁ < 64) :
    charAt? (UInt8.ofNat (n + 192) :: UInt8.ofNat (n₁ + 128) :: rest) =
      scalar? 128 (n * 64 + n₁) := by
  have hlt : ∀ m < 256, UInt8.ofNat (n + 192) < UInt8.ofNat m ↔ n + 192 < m := fun m hm =>
    ofNat_lt_ofNat_iff (by omega) hm
  show (if _ < UInt8.ofNat 128 then _ else if _ < UInt8.ofNat 192 then _
    else if _ < UInt8.ofNat 224 then (tailBits? (UInt8.ofNat (n₁ + 128)) >>= _) else _) = _
  rw [if_neg (by rw [hlt] <;> omega), if_neg (by rw [hlt] <;> omega),
    if_pos (by rw [hlt] <;> omega), tailBits?_ofNat h₁, toNat_ofNat (by omega)]
  show scalar? 128 ((n + 192 - 192) * 64 + n₁) = _
  rw [Nat.add_sub_cancel]

/-- A first byte that announces two more. -/
theorem charAt?_three (h : n < 16) (h₁ : n₁ < 64) (h₂ : n₂ < 64) :
    charAt? (UInt8.ofNat (n + 224) :: UInt8.ofNat (n₁ + 128) :: UInt8.ofNat (n₂ + 128) :: rest) =
      scalar? 2048 ((n * 64 + n₁) * 64 + n₂) := by
  have hlt : ∀ m < 256, UInt8.ofNat (n + 224) < UInt8.ofNat m ↔ n + 224 < m := fun m hm =>
    ofNat_lt_ofNat_iff (by omega) hm
  show (if _ < UInt8.ofNat 128 then _ else if _ < UInt8.ofNat 192 then _
    else if _ < UInt8.ofNat 224 then _ else if _ < UInt8.ofNat 240 then
      (tailBits? (UInt8.ofNat (n₁ + 128)) >>= fun _ => tailBits? (UInt8.ofNat (n₂ + 128)) >>= _)
    else _) = _
  rw [if_neg (by rw [hlt] <;> omega), if_neg (by rw [hlt] <;> omega),
    if_neg (by rw [hlt] <;> omega), if_pos (by rw [hlt] <;> omega), tailBits?_ofNat h₁,
    tailBits?_ofNat h₂, toNat_ofNat (by omega)]
  show scalar? 2048 (((n + 224 - 224) * 64 + n₁) * 64 + n₂) = _
  rw [Nat.add_sub_cancel]

/-- A first byte that announces three more. -/
theorem charAt?_four (h : n < 8) (h₁ : n₁ < 64) (h₂ : n₂ < 64) (h₃ : n₃ < 64) :
    charAt? (UInt8.ofNat (n + 240) :: UInt8.ofNat (n₁ + 128) :: UInt8.ofNat (n₂ + 128) ::
        UInt8.ofNat (n₃ + 128) :: rest) =
      scalar? 65536 (((n * 64 + n₁) * 64 + n₂) * 64 + n₃) := by
  have hlt : ∀ m < 256, UInt8.ofNat (n + 240) < UInt8.ofNat m ↔ n + 240 < m := fun m hm =>
    ofNat_lt_ofNat_iff (by omega) hm
  show (if _ < UInt8.ofNat 128 then _ else if _ < UInt8.ofNat 192 then _
    else if _ < UInt8.ofNat 224 then _ else if _ < UInt8.ofNat 240 then _
    else if _ < UInt8.ofNat 248 then (tailBits? (UInt8.ofNat (n₁ + 128)) >>= fun _ =>
      tailBits? (UInt8.ofNat (n₂ + 128)) >>= fun _ => tailBits? (UInt8.ofNat (n₃ + 128)) >>= _)
    else _) = _
  rw [if_neg (by rw [hlt] <;> omega), if_neg (by rw [hlt] <;> omega),
    if_neg (by rw [hlt] <;> omega), if_neg (by rw [hlt] <;> omega),
    if_pos (by rw [hlt] <;> omega), tailBits?_ofNat h₁, tailBits?_ofNat h₂, tailBits?_ofNat h₃,
    toNat_ofNat (by omega)]
  show scalar? 65536 ((((n + 240 - 240) * 64 + n₁) * 64 + n₂) * 64 + n₃) = _
  rw [Nat.add_sub_cancel]

end

/-- The bytes of a character spell it, whatever comes after them. -/
theorem charAt?_utf8EncodeChar (c : Char) (rest : Text) :
    charAt? (String.utf8EncodeChar c ++ rest) = some c := by
  have hvalid : c.toNat < 1114112 := by
    rcases c.valid with h | h
    · exact Nat.lt_trans h (by decide)
    · exact h.2
  have hself : ∀ {n least}, n = c.toNat → least ≤ n → scalar? least n = some c := by
    rintro n least rfl h
    exact scalar?_toNat c h
  unfold String.utf8EncodeChar
  rw [show c.val.toNat = c.toNat from rfl]
  dsimp only
  split
  · rw [List.singleton_append, charAt?_one _ (by omega), Char.ofNat_toNat]
  split
  · rw [List.cons_append, List.singleton_append, charAt?_two _ (by omega) (by omega)]
    exact hself (by omega) (by omega)
  split
  · rw [List.cons_append, List.cons_append, List.singleton_append,
      charAt?_three _ (by omega) (by omega) (by omega)]
    exact hself (by omega) (by omega)
  · rw [List.cons_append, List.cons_append, List.cons_append, List.singleton_append,
      charAt?_four _ (by omega) (by omega) (by omega) (by omega)]
    exact hself (by omega) (by omega)

/-! ## Strings -/

/-- Bytes that are passed over leave the pieces after them. -/
theorem piecesAfter_append (skipped rest : Text) :
    piecesAfter skipped.length (skipped ++ rest) = piecesAfter 0 rest := by
  induction skipped with
  | nil => rfl
  | cons b skipped ih => exact ih

/-- The pieces of the bytes of characters are the characters. -/
theorem pieces_ofChars (cs : List Char) : pieces (ofChars cs) = cs.map .char := by
  induction cs with
  | nil => rfl
  | cons c cs ih =>
    have hchar := charAt?_utf8EncodeChar c (ofChars cs)
    have hsize : (String.utf8EncodeChar c).length = c.utf8Size := String.length_utf8EncodeChar c
    rw [ofChars_cons, List.map_cons, ← ih]
    unfold pieces
    cases hbytes : String.utf8EncodeChar c with
    | nil =>
      rw [hbytes] at hchar hsize
      exact absurd hsize (Nat.ne_of_lt c.utf8Size_pos)
    | cons b bytes =>
      rw [hbytes, List.cons_append] at hchar
      rw [hbytes, List.length_cons] at hsize
      rw [List.cons_append, piecesAfter, hchar]
      dsimp only
      rw [← hsize, Nat.add_sub_cancel, piecesAfter_append]

/-- The bytes of a string spell the string. -/
theorem toString?_ofString (s : String) : toString? (ofString s) = some s := by
  have hchars : ∀ cs : List Char, (cs.map Piece.char).mapM Piece.char? = some cs := by
    intro cs
    induction cs with
    | nil => rfl
    | cons c cs ih => rw [List.map_cons, List.mapM_cons, ih]; rfl
  unfold toString? chars? ofString
  rw [pieces_ofChars, hchars, Option.map_some, String.ofList_toList]

end StackLift.Text
