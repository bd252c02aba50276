/-
# Constants that are read back

A dump shows a string between double quotes, with escapes, and an integer in decimal.  Whatever
bytes the string has and whatever blanks are put around, what is shown is read as the constant that
it was made from.

* `Text.flatMap_pieces` : the pieces of a text are all there is in it;
* `Text.unquote?_quote` : what is quoted can be read, and stands for what was quoted;
* `Number.literal?_toString` : the digits of a number are a literal of it;
* `Constant.parse_of_exprText` : a string or an integer that is dumped is read back.
-/
import StackLift.Dump
import StackLift.Proofs.Spelling
import StackLift.Proofs.Text

namespace StackLift

/-! ## Bytes that spell a character -/

namespace Text

/-- The bytes of a piece of a text. -/
def Piece.bytes : Piece → Text
  | .char c => String.utf8EncodeChar c
  | .stray b => [b]

theorem utf8EncodeChar_of_lt {c : Char} (h : c.toNat < 128) :
    String.utf8EncodeChar c = [UInt8.ofNat c.toNat] := by
  unfold String.utf8EncodeChar
  rw [show c.val.toNat = c.toNat from rfl]
  exact if_pos (by omega)

/-- The character of a character number has that number. -/
theorem toNat_char_ofNat {n : Nat} (h : n.isValidChar) : (Char.ofNat n).toNat = n := by
  rw [Char.ofNat, dif_pos h]
  exact UInt32.toNat_ofNatLT

theorem scalar?_eq_some {least n : Nat} {c : Char} (h : scalar? least n = some c) :
    least ≤ n ∧ c.toNat = n := by
  unfold scalar? at h
  split at h
  · rename_i hn
    cases h
    exact ⟨hn.1, toNat_char_ofNat hn.2⟩
  · cases h

/-- A byte that continues a character has its bits above 128. -/
theorem tailBits?_eq_some {b : UInt8} {n : Nat} (h : tailBits? b = some n) :
    n < 64 ∧ b.toNat = n + 128 := by
  unfold tailBits? at h
  split at h
  · rename_i hb
    have hle : 128 ≤ b.toNat := UInt8.le_iff_toNat_le.1 hb.1
    have hlt : b.toNat < 192 := UInt8.lt_iff_toNat_lt.1 hb.2
    have hn : b.toNat - 128 = n := Option.some.inj h
    omega
  · cases h

/-- A byte is what its number makes. -/
theorem ofNat_eq_of_toNat {b : UInt8} {n : Nat} (h : b.toNat = n) : UInt8.ofNat n = b := by
  rw [← h, UInt8.ofNat_toNat]

section

variable {c : Char} {b b₁ b₂ b₃ : UInt8} {n₁ n₂ n₃ : Nat}

/-- A character that is read from two bytes is written with these. -/
theorem utf8EncodeChar_two (hfirst : 192 ≤ b.toNat ∧ b.toNat < 224)
    (h₁ : tailBits? b₁ = some n₁) (hc : scalar? 128 ((b.toNat - 192) * 64 + n₁) = some c) :
    String.utf8EncodeChar c = [b, b₁] := by
  obtain ⟨hn₁, hb₁⟩ := tailBits?_eq_some h₁
  obtain ⟨hleast, hc⟩ := scalar?_eq_some hc
  unfold String.utf8EncodeChar
  rw [show c.val.toNat = c.toNat from rfl]
  dsimp only
  rw [if_neg (by omega), if_pos (by omega), ofNat_eq_of_toNat (b := b) (by omega),
    ofNat_eq_of_toNat (b := b₁) (by omega)]

/-- A character that is read from three bytes is written with these. -/
theorem utf8EncodeChar_three (hfirst : 224 ≤ b.toNat ∧ b.toNat < 240)
    (h₁ : tailBits? b₁ = some n₁) (h₂ : tailBits? b₂ = some n₂)
    (hc : scalar? 2048 (((b.toNat - 224) * 64 + n₁) * 64 + n₂) = some c) :
    String.utf8EncodeChar c = [b, b₁, b₂] := by
  obtain ⟨hn₁, hb₁⟩ := tailBits?_eq_some h₁
  obtain ⟨hn₂, hb₂⟩ := tailBits?_eq_some h₂
  obtain ⟨hleast, hc⟩ := scalar?_eq_some hc
  unfold String.utf8EncodeChar
  rw [show c.val.toNat = c.toNat from rfl]
  dsimp only
  rw [if_neg (by omega), if_neg (by omega), if_pos (by omega),
    ofNat_eq_of_toNat (b := b) (by omega), ofNat_eq_of_toNat (b := b₁) (by omega),
    ofNat_eq_of_toNat (b := b₂) (by omega)]

/-- A character that is read from four bytes is written with these. -/
theorem utf8EncodeChar_four (hfirst : 240 ≤ b.toNat ∧ b.toNat < 248)
    (h₁ : tailBits? b₁ = some n₁) (h₂ : tailBits? b₂ = some n₂) (h₃ : tailBits? b₃ = some n₃)
    (hc : scalar? 65536 ((((b.toNat - 240) * 64 + n₁) * 64 + n₂) * 64 + n₃) = some c) :
    String.utf8EncodeChar c = [b, b₁, b₂, b₃] := by
  obtain ⟨hn₁, hb₁⟩ := tailBits?_eq_some h₁
  obtain ⟨hn₂, hb₂⟩ := tailBits?_eq_some h₂
  obtain ⟨hn₃, hb₃⟩ := tailBits?_eq_some h₃
  obtain ⟨hleast, hc⟩ := scalar?_eq_some hc
  unfold String.utf8EncodeChar
  rw [show c.val.toNat = c.toNat from rfl]
  dsimp only
  rw [if_neg (by omega), if_neg (by omega), if_neg (by omega),
    ofNat_eq_of_toNat (b := b) (by omega), ofNat_eq_of_toNat (b := b₁) (by omega),
    ofNat_eq_of_toNat (b := b₂) (by omega), ofNat_eq_of_toNat (b := b₃) (by omega)]

end

/-- A text that starts with a character starts with the bytes of the character. -/
theorem eq_of_charAt?_eq_some {t : Text} {c : Char} (h : charAt? t = some c) :
    ∃ rest, t = String.utf8EncodeChar c ++ rest := by
  cases t with
  | nil => cases h
  | cons b rest =>
    have hlt : ∀ {m : Nat}, m < 256 → (b < UInt8.ofNat m ↔ b.toNat < m) := fun hm => by
      rw [UInt8.lt_iff_toNat_lt, toNat_ofNat hm]
    have hle : ∀ {m : Nat}, m < 256 → ¬ b < UInt8.ofNat m → m ≤ b.toNat := fun hm hb =>
      Nat.not_lt.1 fun hn => hb ((hlt hm).2 hn)
    unfold charAt? at h
    dsimp only at h
    -- the first byte tells how many more there are
    split at h
    · rename_i hb
      have hb := (hlt (m := 128) (by decide)).1 hb
      have hc := toNat_char_ofNat (n := b.toNat) (.inl (by omega))
      obtain rfl := Option.some.inj h
      refine ⟨rest, ?_⟩
      rw [utf8EncodeChar_of_lt (by omega), hc, UInt8.ofNat_toNat, List.singleton_append]
    split at h
    · cases h
    rename_i hfirst
    split at h
    · rename_i hb
      match rest, h with
      | b₁ :: rest, h =>
        obtain ⟨n₁, h₁, h⟩ := Option.bind_eq_some_iff.1 h
        refine ⟨rest, ?_⟩
        rw [utf8EncodeChar_two ⟨hle (m := 192) (by decide) hfirst,
          (hlt (m := 224) (by decide)).1 hb⟩ h₁ h]
        rfl
    rename_i hfirst
    split at h
    · rename_i hb
      match rest, h with
      | b₁ :: b₂ :: rest, h =>
        obtain ⟨n₁, h₁, h⟩ := Option.bind_eq_some_iff.1 h
        obtain ⟨n₂, h₂, h⟩ := Option.bind_eq_some_iff.1 h
        refine ⟨rest, ?_⟩
        rw [utf8EncodeChar_three ⟨hle (m := 224) (by decide) hfirst,
          (hlt (m := 240) (by decide)).1 hb⟩ h₁ h₂ h]
        rfl
    rename_i hfirst
    split at h
    · rename_i hb
      match rest, h with
      | b₁ :: b₂ :: b₃ :: rest, h =>
        obtain ⟨n₁, h₁, h⟩ := Option.bind_eq_some_iff.1 h
        obtain ⟨n₂, h₂, h⟩ := Option.bind_eq_some_iff.1 h
        obtain ⟨n₃, h₃, h⟩ := Option.bind_eq_some_iff.1 h
        refine ⟨rest, ?_⟩
        rw [utf8EncodeChar_four ⟨hle (m := 240) (by decide) hfirst,
          (hlt (m := 248) (by decide)).1 hb⟩ h₁ h₂ h₃ h]
        rfl
    · cases h

/-- The bytes of the pieces of a text after its first bytes are the rest of the text. -/
theorem flatMap_piecesAfter (n : Nat) (t : Text) :
    (piecesAfter n t).flatMap Piece.bytes = t.drop n := by
  induction t generalizing n with
  | nil => simp [piecesAfter]
  | cons b rest ih =>
    cases n with
    | succ n => rw [piecesAfter, ih, List.drop_succ_cons]
    | zero =>
      rw [piecesAfter]
      split
      · rename_i c hc
        obtain ⟨rest', heq⟩ := eq_of_charAt?_eq_some hc
        have hsize := String.length_utf8EncodeChar c
        have hdrop : (b :: rest).drop c.utf8Size = rest' := by
          rw [heq, ← hsize, List.drop_left]
        obtain ⟨m, hm⟩ := Nat.exists_eq_add_of_lt c.utf8Size_pos
        rw [hm, List.drop_succ_cons] at hdrop
        rw [List.flatMap_cons, ih, hm, Nat.add_sub_cancel, hdrop, List.drop_zero, heq]
        rfl
      · rw [List.flatMap_cons, ih]
        rfl

/-- The pieces of a text are all there is in it. -/
theorem flatMap_pieces (t : Text) : (pieces t).flatMap Piece.bytes = t := flatMap_piecesAfter 0 t

/-! ## Escapes -/

theorem length_hexDigits (width n : Nat) : (hexDigits width n).length = width := by
  induction width generalizing n with
  | zero => rfl
  | succ width ih => rw [hexDigits, List.length_append, ih, List.length_singleton]

theorem hexValue?_hexDigit {n : Nat} (h : n < 16) : hexValue? (hexDigit n) = some n := by
  revert n
  decide

/-- Hexadecimal digits spell the number that they were made from, if they are enough for it. -/
theorem hexNumber?_hexDigits {width n : Nat} (h : n < 16 ^ width) :
    hexNumber? (hexDigits width n) = some n := by
  induction width generalizing n with
  | zero =>
    rw [Nat.pow_zero, Nat.lt_one_iff] at h
    rw [h]
    rfl
  | succ width ih =>
    have hn : n / 16 < 16 ^ width := by
      rw [Nat.pow_succ] at h
      exact Nat.div_lt_of_lt_mul (by omega)
    have hlast := hexValue?_hexDigit (Nat.mod_lt n (by decide : 0 < 16))
    have hinit := ih hn
    unfold hexNumber? at hinit ⊢
    rw [hexDigits, List.foldlM_append, hinit]
    simp [hlast, Nat.div_add_mod]

/-- Characters that are passed over leave what is read behind them. -/
theorem unquoteAfter_append (skipped rest : List Char) :
    unquoteAfter skipped.length (skipped ++ rest) = unquoteAfter 0 rest := by
  induction skipped with
  | nil => rfl
  | cons c skipped ih => exact ih

/-- An escape stands for its bytes. -/
theorem unquoteAfter_escape {e rest : List Char} {t : Text}
    (h : escape? (e ++ rest) = some (t, e.length)) :
    unquoteAfter 0 ('\\' :: e ++ rest) = (unquoteAfter 0 rest).map (t ++ ·) := by
  rw [List.cons_append, unquoteAfter, if_neg (by decide), if_neg (by decide), if_pos rfl, h]
  change (unquoteAfter e.length (e ++ rest)).bind (fun r => some (t ++ r)) = _
  rw [unquoteAfter_append]
  exact Option.map_eq_bind.symm

/-- Hexadecimal digits behind the letter of an escape stand for what their number does. -/
theorem hexEscape?_hexDigits {width n : Nat} {value? : Nat → Option Text} {t : Text}
    (h : n < 16 ^ width) (ht : value? n = some t) (rest : List Char) :
    hexEscape? width value? (hexDigits width n ++ rest) = some (t, width + 1) := by
  have hlength := length_hexDigits width n
  have htake : (hexDigits width n ++ rest).take width = hexDigits width n := by
    rw [List.take_left' hlength]
  unfold hexEscape?
  rw [if_neg (by rw [List.length_append, hlength]; omega), htake, hexNumber?_hexDigits h]
  change (value? n).bind _ = _
  rw [ht]
  rfl

/-- A control character with a letter is read from its letter. -/
theorem escape?_of_controlLetter? {c l : Char} (h : controlLetter? c = some l) (rest : List Char) :
    escape? (l :: rest) = some (String.utf8EncodeChar c, 1) := by
  have key : ∀ {n : Nat}, c.toNat = n → n < 128 → String.utf8EncodeChar c = [UInt8.ofNat n] := by
    rintro n rfl hn
    exact utf8EncodeChar_of_lt hn
  unfold controlLetter? at h
  split at h <;> cases h
  all_goals
    rename_i hc
    rw [key hc (by decide)]
    rfl

/-- A character that is printed as it is stands for itself. -/
theorem unquoteAfter_of_isPrintable {c : Char} (hquote : ¬ (c = '"' ∨ c = '\\'))
    (hprint : isPrintable c = true) (rest : List Char) :
    unquoteAfter 0 (c :: rest) = (unquoteAfter 0 rest).map (String.utf8EncodeChar c ++ ·) := by
  have hfeed : c ≠ '\n' := by
    rintro rfl
    exact absurd hprint (by decide)
  rw [unquoteAfter, if_neg fun h => hquote (.inl h), if_neg hfeed, if_neg fun h => hquote (.inr h)]
  exact Option.map_eq_bind.symm

/-- A quoted character stands for its bytes. -/
theorem unquoteAfter_quoteChar (c : Char) (rest : List Char) :
    unquoteAfter 0 (quoteChar c ++ rest) =
      (unquoteAfter 0 rest).map (String.utf8EncodeChar c ++ ·) := by
  unfold quoteChar
  split
  · rename_i hc
    rcases hc with rfl | rfl
    · exact unquoteAfter_escape (e := ['"']) rfl
    · exact unquoteAfter_escape (e := ['\\']) rfl
  rename_i hquote
  split
  · rename_i hprint
    exact unquoteAfter_of_isPrintable hquote hprint rest
  split
  · rename_i l hl
    exact unquoteAfter_escape (e := [l]) (escape?_of_controlLetter? hl rest)
  -- the number of the character is written with as many digits as it needs
  have hscalar : (scalar? 0 c.toNat).map String.utf8EncodeChar =
      some (String.utf8EncodeChar c) := by
    rw [scalar?_toNat c (Nat.zero_le _), Option.map_some]
  split
  · rename_i hlt
    refine unquoteAfter_escape (e := 'x' :: hexDigits 2 c.toNat) ?_
    rw [List.length_cons, length_hexDigits, utf8EncodeChar_of_lt hlt]
    exact hexEscape?_hexDigits (by omega) rfl rest
  split
  · rename_i hlt
    refine unquoteAfter_escape (e := 'u' :: hexDigits 4 c.toNat) ?_
    rw [List.length_cons, length_hexDigits]
    exact hexEscape?_hexDigits (by omega) hscalar rest
  · have hlt : c.toNat < 16 ^ 8 := Nat.lt_of_lt_of_le c.val.toNat_lt (by decide)
    refine unquoteAfter_escape (e := 'U' :: hexDigits 8 c.toNat) ?_
    rw [List.length_cons, length_hexDigits]
    exact hexEscape?_hexDigits hlt hscalar rest

/-- A quoted piece stands for its bytes. -/
theorem unquoteAfter_quotePiece (p : Piece) (rest : List Char) :
    unquoteAfter 0 (quotePiece p ++ rest) = (unquoteAfter 0 rest).map (p.bytes ++ ·) := by
  cases p with
  | char c => exact unquoteAfter_quoteChar c rest
  | stray b =>
    refine unquoteAfter_escape (e := 'x' :: hexDigits 2 b.toNat) ?_
    rw [List.length_cons, length_hexDigits]
    refine hexEscape?_hexDigits b.toNat_lt ?_ rest
    rw [Nat.toUInt8, UInt8.ofNat_toNat]
    rfl

/-- Quoted pieces before a closing quote stand for their bytes. -/
theorem unquoteAfter_flatMap_quotePiece (ps : List Piece) :
    unquoteAfter 0 (ps.flatMap quotePiece ++ ['"']) = some (ps.flatMap Piece.bytes) := by
  induction ps with
  | nil => rfl
  | cons p ps ih =>
    rw [List.flatMap_cons, List.append_assoc, unquoteAfter_quotePiece, ih, List.flatMap_cons]
    rfl

/-- What is quoted can be read, and stands for what was quoted. -/
theorem unquote?_quote (t : Text) : unquote? (quote t).toList = some t := by
  rw [quote, String.toList_ofList]
  change unquoteAfter 0 ((pieces t).flatMap quotePiece ++ ['"']) = some t
  rw [unquoteAfter_flatMap_quotePiece, flatMap_pieces]

example : quote [0xE2, 0x82, 0xAC, 0xC2, 0xA0, 0xFF, 0x22, 0x07, 0x01, 0x31] =
    "\"€\\u00a0\\xff\\\"\\a\\x011\"" := by
  decide +kernel

/-! ## Blanks around a text -/

/-- Whether a text neither begins nor ends with a blank, and is not empty. -/
def IsTrimmed (cs : List Char) : Prop :=
  (∃ c, cs.head? = some c ∧ isBlank c = false) ∧ ∃ c, cs.getLast? = some c ∧ isBlank c = false

theorem dropWhile_isBlank {before cs : List Char} (hbefore : ∀ c ∈ before, isBlank c = true)
    (hcs : ∃ c, cs.head? = some c ∧ isBlank c = false) :
    (before ++ cs).dropWhile isBlank = cs := by
  obtain ⟨c, hc, hblank⟩ := hcs
  obtain ⟨rest, rfl⟩ := List.head?_eq_some_iff.1 hc
  rw [List.dropWhile_append_of_pos hbefore, List.dropWhile_cons_of_neg (by simp [hblank])]

/-- Blanks around a text are left out. -/
theorem trim_append {before cs after : List Char} (hbefore : ∀ c ∈ before, isBlank c = true)
    (hcs : IsTrimmed cs) (hafter : ∀ c ∈ after, isBlank c = true) :
    trim (before ++ cs ++ after) = cs := by
  obtain ⟨hhead, hlast⟩ := hcs
  obtain ⟨c, hc, hblank⟩ := hhead
  have hleft : (before ++ (cs ++ after)).dropWhile isBlank = cs ++ after :=
    dropWhile_isBlank hbefore ⟨c, by rw [List.head?_append, hc]; rfl, hblank⟩
  have hright : (after.reverse ++ cs.reverse).dropWhile isBlank = cs.reverse :=
    dropWhile_isBlank (by simpa using hafter) (by rwa [List.head?_reverse])
  rw [trim, List.append_assoc, hleft, List.reverse_append, hright, List.reverse_reverse]

end Text

/-! ## Digits of a number -/

namespace Number

theorem digitsAfter?_concat {base : Nat} {c : Char} (hc : c ≠ '_') (n : Nat) (cs : List Char) :
    digitsAfter? base n (cs ++ [c]) =
      (digitsAfter? base n cs).bind fun m => (digitOf? base c).map (base * m + ·) := by
  induction cs generalizing n with
  | nil =>
    change (if c = '_' then _ else _) = _
    rw [if_neg hc]
    exact Option.map_eq_bind.symm
  | cons d cs ih =>
    rw [List.cons_append, digitsAfter?, digitsAfter?]
    split
    · exact ih n
    · cases digitOf? base d with
      | none => rfl
      | some k => exact ih _

/-- The digits of a number have it as their value. -/
theorem digitsAfter?_toDigits (n : Nat) : digitsAfter? 10 0 (Nat.toDigits 10 n) = some n := by
  have hdigit : ∀ {d : Nat}, d < 10 → digitOf? 10 (Nat.digitChar d) = some d := fun hd =>
    (digitOf?_ten_eq_some_iff _ _).2 ⟨hd, rfl⟩
  have hscore : ∀ d, d < 10 → Nat.digitChar d ≠ '_' := by decide
  induction n using Nat.strongRecOn with
  | ind n ih =>
    rcases Nat.lt_or_ge n 10 with hlt | hge
    · rw [Nat.toDigits_of_lt_base hlt, ← List.nil_append [_], digitsAfter?_concat (hscore n hlt),
        hdigit hlt]
      simp [digitsAfter?]
    · have hlast : n % 10 < 10 := Nat.mod_lt n (by decide)
      rw [Nat.toDigits_of_base_le (by decide) hge, digitsAfter?_concat (hscore _ hlast),
        ih (n / 10) (by omega), hdigit hlast, Option.bind_some, Option.map_some, Nat.div_add_mod]

/-- The digits of a positive number do not begin with a zero. -/
theorem toDigits_of_pos {n : Nat} (h : 0 < n) :
    ∃ c cs, Nat.toDigits 10 n = c :: cs ∧ c ≠ '0' := by
  induction n using Nat.strongRecOn with
  | ind n ih =>
    rcases Nat.lt_or_ge n 10 with hlt | hge
    · have hzero : ∀ d, d < 10 → 0 < d → Nat.digitChar d ≠ '0' := by decide
      exact ⟨_, [], Nat.toDigits_of_lt_base hlt, hzero n hlt h⟩
    · obtain ⟨c, cs, heq, hc⟩ := ih (n / 10) (by omega) (by omega)
      rw [Nat.toDigits_of_base_le (by decide) hge, heq]
      exact ⟨c, cs ++ _, rfl, hc⟩

theorem isDigit_of_mem_toDigits {n : Nat} {c : Char} (h : c ∈ Nat.toDigits 10 n) :
    c.isDigit = true := Nat.isDigit_of_mem_toDigits (by decide) (by decide) h

/-- There is no underscore out of place among digits. -/
theorem underscoresOkAfter_of_isDigit {before : Neighbour} {cs : List Char}
    (hbefore : before ≠ .underscore) (h : ∀ c ∈ cs, c.isDigit = true) :
    underscoresOkAfter Char.isDigit before cs = true := by
  induction cs generalizing before with
  | nil => simpa [underscoresOkAfter] using hbefore
  | cons c cs ih =>
    rw [underscoresOkAfter, if_pos (h c List.mem_cons_self)]
    exact ih (by decide) fun d hd => h d (List.mem_cons_of_mem _ hd)

/-- A digit is no sign. -/
theorem splitSign_of_isDigit {c : Char} (h : c.isDigit = true) (cs : List Char) :
    splitSign (c :: cs) = (false, c :: cs) := by
  unfold splitSign
  split
  · rename_i heq
    cases heq
    exact absurd h (by decide)
  · rename_i heq
    cases heq
    exact absurd h (by decide)
  · rfl

/-- The digits of a number are a literal of it: they begin with no sign, have no underscores, and
tell no other base than ten. -/
theorem literal_toDigits (n : Nat) :
    splitSign (Nat.toDigits 10 n) = (false, Nat.toDigits 10 n) ∧
      underscoresOk (Nat.toDigits 10 n) = true ∧
      digitsAfter? (splitBase (Nat.toDigits 10 n)).1 0 (splitBase (Nat.toDigits 10 n)).2 =
        some n := by
  have hdigits := digitsAfter?_toDigits n
  have hall : ∀ c ∈ Nat.toDigits 10 n, c.isDigit = true := fun c => isDigit_of_mem_toDigits
  rcases Nat.eq_zero_or_pos n with rfl | hpos
  · exact ⟨rfl, rfl, rfl⟩
  · obtain ⟨c, cs, heq, hc⟩ := toDigits_of_pos hpos
    rw [heq] at hdigits hall ⊢
    have hsign := splitSign_of_isDigit (hall c List.mem_cons_self) cs
    have hscores : underscoresOk (c :: cs) = true := by
      unfold underscoresOk
      rw [hsign]
      split
      · rename_i heq
        exact absurd (List.cons_eq_cons.1 heq).1 hc
      · exact underscoresOkAfter_of_isDigit (by decide) hall
    have hbase : splitBase (c :: cs) = (10, c :: cs) := by
      unfold splitBase
      split
      · rename_i heq
        exact absurd (List.cons_eq_cons.1 heq).1 hc
      · rename_i heq
        exact absurd (List.cons_eq_cons.1 heq).1 hc
      · rfl
    exact ⟨hsign, hscores, by rw [hbase]; exact hdigits⟩

/-- An integer is written with a sign if it is negative, and with the digits of its magnitude. -/
theorem toList_toString (n : Int) : ∃ negative m, n = withSign negative m ∧
    (toString n).toList = (if negative then ['-'] else []) ++ Nat.toDigits 10 m := by
  cases n with
  | ofNat m => exact ⟨false, m, rfl, String.toList_ofList⟩
  | negSucc m =>
    refine ⟨true, m + 1, rfl, ?_⟩
    change ("-" ++ String.ofList (Nat.toDigits 10 (m + 1))).toList = _
    rw [String.toList_append, String.toList_ofList (l := Nat.toDigits 10 (m + 1))]
    rfl

/-- What is written for an integer of 64 bits is a literal of it. -/
theorem literal?_toString {n : Int} (h : isInt64 n = true) :
    literal? (toString n).toList = some n := by
  obtain ⟨negative, m, rfl, heq⟩ := toList_toString n
  obtain ⟨hsign, hscores, hdigits⟩ := literal_toDigits m
  have hsplit : splitSign (toString (withSign negative m)).toList =
      (negative, Nat.toDigits 10 m) := by
    rw [heq]
    cases negative with
    | true => rfl
    | false => exact hsign
  have hnonempty : (Nat.toDigits 10 m).isEmpty = false := by simp
  unfold literal?
  rw [hsplit]
  dsimp only
  rw [if_neg (by simp [hnonempty, hscores]), hdigits]
  exact if_pos h

/-- What is written for an integer begins with a digit or a minus sign. -/
theorem head?_toString (n : Int) :
    ∃ c, (toString n).toList.head? = some c ∧ (c = '-' ∨ c.isDigit = true) := by
  obtain ⟨negative, m, -, heq⟩ := toList_toString n
  rw [heq]
  cases negative with
  | true => exact ⟨'-', rfl, .inl rfl⟩
  | false =>
    obtain ⟨c, cs, hcs⟩ := List.exists_cons_of_ne_nil (Nat.toDigits_ne_nil (n := m) (b := 10))
    have hc : c ∈ Nat.toDigits 10 m := hcs ▸ List.mem_cons_self
    exact ⟨c, by rw [hcs]; rfl, .inr (isDigit_of_mem_toDigits hc)⟩

/-- What is written for an integer ends with a digit. -/
theorem getLast?_toString (n : Int) :
    ∃ c, (toString n).toList.getLast? = some c ∧ c.isDigit = true := by
  obtain ⟨negative, m, -, heq⟩ := toList_toString n
  have hne := Nat.toDigits_ne_nil (n := m) (b := 10)
  refine ⟨(Nat.toDigits 10 m).getLast hne, ?_, isDigit_of_mem_toDigits (List.getLast_mem hne)⟩
  rw [heq, List.getLast?_append, List.getLast?_eq_some_getLast hne, Option.some_or]

end Number

/-! ## Constants -/

namespace Text

theorem isTrimmed_quote (t : Text) : IsTrimmed (quote t).toList := by
  rw [quote, String.toList_ofList]
  exact ⟨⟨'"', rfl, by decide⟩, '"', List.getLast?_concat, by decide⟩

theorem isBlank_of_isDigit {c : Char} (h : c.isDigit = true) : isBlank c = false := by
  simp only [Char.isDigit, Bool.and_eq_true, decide_eq_true_eq] at h
  have hle : 48 ≤ c.toNat := h.1
  have hge : c.toNat ≤ 57 := h.2
  simp only [isBlank, Bool.or_eq_false_iff, Bool.and_eq_false_iff, decide_eq_false_iff_not,
    beq_eq_false_iff_ne]
  omega

theorem isTrimmed_toString (n : Int) : IsTrimmed (toString n).toList := by
  obtain ⟨c, hc, hdigit⟩ := Number.head?_toString n
  obtain ⟨d, hd, hdigit'⟩ := Number.getLast?_toString n
  refine ⟨⟨c, hc, ?_⟩, d, hd, isBlank_of_isDigit hdigit'⟩
  rcases hdigit with rfl | hdigit
  · decide
  · exact isBlank_of_isDigit hdigit

theorem ofString_append (s s' : String) : ofString (s ++ s') = ofString s ++ ofString s' := by
  rw [ofString, String.toList_append, ofChars_append, ofString, ofString]

end Text

namespace Constant

/-- Whether a constant is a string or an integer of 64 bits. -/
def isPlain : Constant → Bool
  | .str _ => true
  | .int n => Number.isInt64 n
  | _ => false

/-- A text that begins with another character than the words for constants is none of them. -/
theorem ne_words_of_head? {c : Char} {cs : List Char} (h : cs.head? = some c)
    (hc : c ∉ ['N', 'T', 'F']) :
    cs ≠ "None".toList ∧ cs ≠ "True".toList ∧ cs ≠ "False".toList ∧ ¬ cs.isEmpty = true := by
  obtain ⟨rest, rfl⟩ := List.head?_eq_some_iff.1 h
  refine ⟨?_, ?_, ?_, by simp⟩
  all_goals
    intro heq
    obtain ⟨rfl, -⟩ := List.cons_eq_cons.1 heq
    exact hc (by decide)

/-- A quoted string is read. -/
theorem parse_of_trim_eq_quote {s : String} {t : Text}
    (h : Text.trim s.toList = (Text.quote t).toList) : parse s = .ok (.str t) := by
  have hunquote := Text.unquote?_quote t
  have hhead : (Text.quote t).toList.head? = some '"' := by
    rw [Text.quote, String.toList_ofList]
    rfl
  have hquote : quoteOf? (Text.quote t).toList = some '"' := by
    rw [Text.quote, String.toList_ofList]
    exact if_pos ⟨.inr rfl, List.getLast?_concat⟩
  obtain ⟨hnone, htrue, hfalse, hempty⟩ := ne_words_of_head? hhead (by decide)
  unfold parse
  rw [h]
  dsimp only
  rw [if_neg hnone, if_neg htrue, if_neg hfalse, if_neg hempty, hquote, hunquote]
  rfl

/-- An integer in decimal is read. -/
theorem parse_of_trim_eq_toString {s : String} {n : Int} (hn : Number.isInt64 n = true)
    (h : Text.trim s.toList = (toString n).toList) : parse s = .ok (.int n) := by
  obtain ⟨c, hhead, hc⟩ := Number.head?_toString n
  have hne : ∀ d : Char, d ≠ '-' → d.isDigit = false → c ≠ d := by
    rintro d hd hdigit rfl
    rcases hc with hc | hc
    · exact hd hc
    · rw [hdigit] at hc
      cases hc
  have hwords : c ∉ ['N', 'T', 'F'] := by
    simp only [List.mem_cons, List.not_mem_nil, or_false, not_or]
    exact ⟨hne _ (by decide) rfl, hne _ (by decide) rfl, hne _ (by decide) rfl⟩
  obtain ⟨hnone, htrue, hfalse, hempty⟩ := ne_words_of_head? hhead hwords
  have hquote : quoteOf? (toString n).toList = Option.none := by
    obtain ⟨rest, heq⟩ := List.head?_eq_some_iff.1 hhead
    rw [heq]
    exact if_neg fun hquote => hquote.1.elim (hne _ (by decide) rfl) (hne _ (by decide) rfl)
  unfold parse
  rw [h]
  dsimp only
  rw [if_neg hnone, if_neg htrue, if_neg hfalse, if_neg hempty, hquote]
  dsimp only
  rw [number?, Number.literal?_toString hn]

/-- What a dump shows of a string or of an integer behind the word `const` is read as the same
constant, whatever blanks are put around it. -/
theorem parse_of_exprText (g : Graph) {c : Constant} (hc : c.isPlain = true) :
    ∃ s : String, Dump.exprText g (some (.const c)) = .ok (Text.ofString ("const " ++ s)) ∧
      ∀ before after : List Char, (∀ x ∈ before, Text.isBlank x = true) →
        (∀ x ∈ after, Text.isBlank x = true) →
        parse (String.ofList (before ++ s.toList ++ after)) = .ok c := by
  cases c with
  | str t =>
    refine ⟨Text.quote t, ?_, fun before after hbefore hafter => parse_of_trim_eq_quote ?_⟩
    · rw [Text.ofString_append]
      rfl
    · rw [String.toList_ofList, Text.trim_append hbefore (Text.isTrimmed_quote t) hafter]
  | int n =>
    refine ⟨toString n, ?_, fun before after hbefore hafter => parse_of_trim_eq_toString hc ?_⟩
    · rw [Text.ofString_append]
      rfl
    · rw [String.toList_ofList, Text.trim_append hbefore (Text.isTrimmed_toString n) hafter]
  | _ => cases hc

/-- A string with a printed character and one that is not, a byte that is no character, quotes of
both kinds, a control character, a backslash, a digit behind an escape, and a blank at its end. -/
def delicate : Constant :=
  .str [0xE2, 0x82, 0xAC, 0xC2, 0xA0, 0xFF, 0x22, 0x27, 0x07, 0x5C, 0x01, 0x31, 0x20]

/-- The string above is read back from between blanks. -/
theorem parse_of_exprText_delicate : delicate.isPlain = true ∧ ∃ s : String,
    Dump.exprText Graph.empty (some (.const delicate)) = .ok (Text.ofString ("const " ++ s)) ∧
    parse (String.ofList (['\u2003', '\n'] ++ s.toList ++ ['\t', ' '])) = .ok delicate := by
  have hplain : delicate.isPlain = true := by decide
  obtain ⟨s, hs, hparse⟩ := parse_of_exprText Graph.empty hplain
  exact ⟨hplain, s, hs,
    hparse _ _ (List.all_eq_true.1 (by decide)) (List.all_eq_true.1 (by decide))⟩

end Constant

end StackLift
