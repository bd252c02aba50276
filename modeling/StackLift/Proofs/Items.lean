/-
# Items that are read back

A codec writes items as bytes and reads bytes as items.  It is lawful if it reads back what it
wrote, but for lists and maps with too many elements, and if it writes all that is no number in one
way.  Nothing is said about tags, about strings of bytes or of unknown length, and about numbers
that need more than 64 bits.

The reader here takes from the bytes of an item that item and nothing more, whatever comes after
them, and so is half of a lawful codec.

* `IsWritable` : the items that laws are about;
* `Codec`, `Codec.IsLawful` : any way to write and read them, and its laws;
* `readHead_head` : the head of an item is read back;
* `reads_text`, `reads_float`, `reads_array`, `reads_map` : so are texts, numbers, lists and maps;
* `IsWritable.reads` : so are all items that can be written;
* `isLawful_codec` : `encode` and `decode` are a lawful codec.
-/
import StackLift.Number.Integer
import StackLift.Proofs.Rounding

namespace StackLift.Item

/-! ## Items that can be written -/

/-- Whether an item can be written, and nests at most so deep: its numbers and its lengths have 64
bits, and there are no tags, strings of bytes or texts of several parts in it. -/
inductive IsWritable : (levels : Nat) → Item → Prop
  | unsigned {levels n : Nat} (hn : n < 0x10000000000000000) : IsWritable levels (.unsigned n)
  | negative {levels n : Nat} (hn : n < 0x10000000000000000) : IsWritable levels (.negative n)
  | text {levels : Nat} {t : Text} (ht : t.length < 0x10000000000000000) :
      IsWritable levels (.text t)
  | simple {levels n : Nat} (hn : n < 24) : IsWritable levels (.simple n)
  | float {levels : Nat} (x : Number.Binary64) : IsWritable levels (.float x)
  | array {levels : Nat} {items : List Item} (hlength : items.length < 0x10000000000000000)
      (hitems : ∀ i ∈ items, IsWritable levels i) : IsWritable (levels + 1) (.array items)
  | map {levels : Nat} {pairs : List (Item × Item)} (hlength : pairs.length < 0x10000000000000000)
      (hkeys : ∀ p ∈ pairs, IsWritable levels p.1) (hvalues : ∀ p ∈ pairs, IsWritable levels p.2) :
      IsWritable (levels + 1) (.map pairs)

/-- A number of 64 bits can be written. -/
theorem isWritable_int {levels : Nat} {v : Int} (hv : Number.isInt64 v = true) :
    IsWritable levels (.int v) := by
  simp only [Number.isInt64, decide_eq_true_eq] at hv
  unfold int
  split
  · exact .unsigned (by omega)
  · exact .negative (by omega)

mutual

/-- Whether the lists and maps of an item have at most as many elements as are read. -/
def withinLimits : Item → Bool
  | .array items => items.length ≤ maxElements && withinLimitsAll items
  | .map pairs => pairs.length ≤ maxElements && withinLimitsPairs pairs
  | .tag _ content => content.withinLimits
  | _ => true

/-- Whether items keep to the limits. -/
def withinLimitsAll : List Item → Bool
  | [] => true
  | i :: is => i.withinLimits && withinLimitsAll is

/-- Whether keys and values keep to the limits. -/
def withinLimitsPairs : List (Item × Item) → Bool
  | [] => true
  | (k, v) :: ps => (k.withinLimits && v.withinLimits) && withinLimitsPairs ps

end

/-- Items are within the limits if each of them is. -/
theorem withinLimitsAll_eq (items : List Item) :
    withinLimitsAll items = items.all withinLimits := by
  induction items with
  | nil => rfl
  | cons i is ih => rw [withinLimitsAll, ih, List.all_cons]

mutual

/-- An item with one pattern of bits for what is no number. -/
def canonical : Item → Item
  | .float x => .float (if x.isNaN then .nan else x)
  | .array items => .array (canonicalAll items)
  | .map pairs => .map (canonicalPairs pairs)
  | .tag n content => .tag n content.canonical
  | i => i

/-- Items with one pattern of bits for what is no number. -/
def canonicalAll : List Item → List Item
  | [] => []
  | i :: is => i.canonical :: canonicalAll is

/-- Keys and values with one pattern of bits for what is no number. -/
def canonicalPairs : List (Item × Item) → List (Item × Item)
  | [] => []
  | (k, v) :: ps => (k.canonical, v.canonical) :: canonicalPairs ps

end

theorem canonicalAll_eq (items : List Item) : canonicalAll items = items.map canonical := by
  induction items with
  | nil => rfl
  | cons i is ih => rw [canonicalAll, ih, List.map_cons]

theorem length_canonicalPairs (ps : List (Item × Item)) :
    (canonicalPairs ps).length = ps.length := by
  induction ps with
  | nil => rfl
  | cons p ps ih => rw [canonicalPairs, List.length_cons, ih, List.length_cons]

/-! ## Codecs -/

/-- A way to write items as bytes, and one to read bytes as items. -/
structure Codec where
  encode : Item → Text
  decode : Text → Option Item

/-- The laws of a codec. -/
structure Codec.IsLawful (c : Codec) : Prop where
  /-- What is written is read back, unless a list or a map has too many elements. -/
  decode_encode : ∀ i, IsWritable maxLevels i →
    c.decode (c.encode i) = if i.withinLimits then some i.canonical else none
  /-- What is no number is written in one way. -/
  encode_canonical : ∀ i, c.encode i.canonical = c.encode i

/-- The codec of this library. -/
def codec : Codec := ⟨encode, decode⟩

/-! ## Numbers of several bytes -/

section

variable {width n : Nat}

theorem length_bigEndian (width n : Nat) : (bigEndian width n).length = width := by
  induction width generalizing n with
  | zero => rfl
  | succ width ih => rw [bigEndian, List.length_append, ih, List.length_singleton]

theorem ofBigEndian_bigEndian (h : n < Nat.pow 256 width) :
    ofBigEndian (bigEndian width n) = n := by
  induction width generalizing n with
  | zero =>
    have hzero : n < 1 := h
    show 0 = n
    omega
  | succ width ih =>
    have hdiv : n / 256 < Nat.pow 256 width := Nat.div_lt_of_lt_mul (by
      rw [Nat.mul_comm]
      exact h)
    have hstep : ofBigEndian (bigEndian width (n / 256) ++ [(n % 256).toUInt8]) =
        256 * ofBigEndian (bigEndian width (n / 256)) + ((n % 256).toUInt8).toNat :=
      List.foldl_append ..
    rw [bigEndian, hstep, ih hdiv, Nat.toUInt8_eq, UInt8.toNat_ofNat']
    omega

theorem readBytes_append (b rest : Text) : readBytes b.length (b ++ rest) = some (b, rest) := by
  unfold readBytes
  dsimp only
  rw [List.take_left, List.drop_left, if_pos rfl]

theorem readNumber_bigEndian (h : n < Nat.pow 256 width) (rest : Text) :
    readNumber width (bigEndian width n ++ rest) = some (n, rest) := by
  have hbytes := readBytes_append (bigEndian width n) rest
  rw [length_bigEndian] at hbytes
  unfold readNumber
  rw [hbytes]
  show some (ofBigEndian (bigEndian width n), rest) = _
  rw [ofBigEndian_bigEndian h]

end

/-! ## Heads -/

section

variable {k : Kind} {info width n : Nat}

theorem Kind.ofCode_code (k : Kind) : ofCode k.code = k := by cases k <;> rfl

theorem Kind.code_lt (k : Kind) : k.code < 8 := by cases k <;> decide

theorem toNat_firstByte (k : Kind) (h : info < 32) :
    (firstByte k info).toNat = 32 * k.code + info := by
  have hcode := k.code_lt
  rw [firstByte, Nat.toUInt8_eq, UInt8.toNat_ofNat', Nat.mod_eq_of_lt (by omega)]

/-- The first byte tells the kind. -/
theorem kind_firstByte (k : Kind) (h : info < 32) :
    Kind.ofCode ((firstByte k info).toNat / 32) = k := by
  rw [toNat_firstByte k h, show (32 * k.code + info) / 32 = k.code from by omega, k.ofCode_code]

/-- The first byte tells the five bits after the kind. -/
theorem info_firstByte (k : Kind) (h : info < 32) : (firstByte k info).toNat % 32 = info := by
  rw [toNat_firstByte k h]
  omega

/-- A head that is one byte. -/
theorem readHead_short (k : Kind) (h : n < 24) (rest : Text) :
    readHead (firstByte k n :: rest) = some (⟨k, n, some n⟩, rest) := by
  unfold readHead
  dsimp only
  rw [kind_firstByte k (by omega), info_firstByte k (by omega), if_pos h]

/-- A head with a number after its first byte. -/
theorem readHead_long (hwidth : numberWidth? info = some width) (hinfo : 24 ≤ info ∧ info < 31)
    (hn : n < Nat.pow 256 width) (hk : k = .simple → info ≠ 24) (rest : Text) :
    readHead (firstByte k info :: bigEndian width n ++ rest) =
      some (⟨k, info, some n⟩, rest) := by
  rw [List.cons_append]
  unfold readHead
  dsimp only
  rw [kind_firstByte k (by omega), info_firstByte k (by omega), if_neg (by omega),
    if_neg (by omega), hwidth]
  show (readNumber width (bigEndian width n ++ rest) >>= _) = _
  rw [readNumber_bigEndian hn]
  -- only simple values with one more byte may be refused
  exact if_neg fun h => hk h.1 h.2.1

/-- The head of an item is read back. -/
theorem readHead_head (hk : k ≠ .simple) (hn : n < 0x10000000000000000) (rest : Text) :
    ∃ info, readHead (head k n ++ rest) = some (⟨k, info, some n⟩, rest) := by
  unfold head
  split
  · exact ⟨n, readHead_short k ‹_› rest⟩
  split
  · exact ⟨24, readHead_long rfl (by omega) ‹_› (absurd · hk) rest⟩
  split
  · exact ⟨25, readHead_long rfl (by omega) ‹_› (absurd · hk) rest⟩
  split
  · exact ⟨26, readHead_long rfl (by omega) ‹_› (absurd · hk) rest⟩
  · exact ⟨27, readHead_long rfl (by omega) hn (absurd · hk) rest⟩

end

/-! ## Items without items inside -/

/-- Whether an item is read from its bytes, whatever comes after them; if not, it is refused. -/
def Reads (levels : Nat) (i : Item) (ok : Bool) : Prop :=
  ∀ rest, read levels (i.encode ++ rest) = if ok then some (i, rest) else none

section

variable {levels n : Nat}

/-- After a head that is no tag comes the body. -/
theorem readWith_of_head {inner : Option (Reader Item)} {k : Kind} {info : Nat} {t rest : Text}
    (hhead : readHead t = some (⟨k, info, some n⟩, rest)) (htag : k ≠ .tag) :
    readWith inner t = readBody inner ⟨k, info, some n⟩ rest := by
  unfold readWith
  rw [hhead]
  exact if_neg htag

theorem reads_of_readWith {i : Item}
    (h : ∀ inner rest, readWith inner (i.encode ++ rest) = some (i, rest)) :
    Reads levels i true := by
  intro rest
  cases levels with
  | zero => exact h none rest
  | succ levels => exact h (some (read levels)) rest

theorem reads_unsigned (hn : n < 0x10000000000000000) : Reads levels (.unsigned n) true := by
  apply reads_of_readWith
  intro inner rest
  obtain ⟨info, hhead⟩ := readHead_head (k := Kind.unsigned) (by decide) hn rest
  rw [encode, readWith_of_head hhead (by decide)]
  rfl

theorem reads_negative (hn : n < 0x10000000000000000) : Reads levels (.negative n) true := by
  apply reads_of_readWith
  intro inner rest
  obtain ⟨info, hhead⟩ := readHead_head (k := .negative) (by decide) hn rest
  rw [encode, readWith_of_head hhead (by decide)]
  rfl

/-- A text is read back; whether it is valid makes no difference. -/
theorem reads_text {t : Text} (ht : t.length < 0x10000000000000000) :
    Reads levels (.text t) true := by
  apply reads_of_readWith
  intro inner rest
  obtain ⟨info, hhead⟩ := readHead_head (k := .text) (by decide) ht (t ++ rest)
  rw [encode, List.append_assoc, readWith_of_head hhead (by decide)]
  show ((readBytes t.length (t ++ rest)).map _).map _ = _
  rw [readBytes_append]
  rfl

theorem reads_simple (hn : n < 24) : Reads levels (.simple n) true := by
  apply reads_of_readWith
  intro inner rest
  have hencode : (Item.simple n).encode = [firstByte .simple n] := by
    rw [encode, head, if_pos hn]
  have hinfo : simpleItem n n = .simple n := by
    unfold simpleItem
    split <;> first | omega | rfl
  rw [hencode, List.singleton_append, readWith_of_head (readHead_short .simple hn rest) (by decide)]
  show some (simpleItem n n, rest) = _
  rw [hinfo]

end

/-! ## Floating-point numbers -/

section

open Number

variable {levels : Nat} {x : Binary64}

/-- The bytes of a number in a format are read as the item of its bits. -/
theorem readWith_encodeFormat {f : Format} {width info : Nat}
    (hwidth : numberWidth? info = some width) (hinfo : 24 < info ∧ info < 31) (negative : Bool)
    {bits : Nat} (hbits : (if negative then f.signBit + bits else bits) < Nat.pow 256 width)
    (inner : Option (Reader Item)) (rest : Text) :
    readWith inner (encodeFormat f width info negative bits ++ rest) =
      some (simpleItem info (if negative then f.signBit + bits else bits), rest) := by
  have hhead := readHead_long (k := .simple) hwidth (by omega) hbits (fun _ => by omega) rest
  rw [encodeFormat, readWith_of_head hhead (by decide)]
  rfl

/-- With its sign, a number takes the whole width of a format. -/
theorem signed_lt {f : Format} {width bits : Nat} (negative : Bool)
    (hwidth : Nat.pow 256 width = f.signBit + f.signBit) (hbits : bits < f.signBit) :
    (if negative then f.signBit + bits else bits) < Nat.pow 256 width := by
  split <;> omega

/-- A number in a shorter format is read back if widening it gives it back. -/
theorem readWith_encodeFormat_widen {f : Format} {width info bits : Nat}
    (hwidth : numberWidth? info = some width) (hinfo : 24 < info ∧ info < 31)
    (hsize : Nat.pow 256 width = f.signBit + f.signBit)
    (hitem : ∀ n, simpleItem info n = .float (widen f n)) (hbits : bits < f.signBit)
    (hwiden : widen f (if x.isNegative then f.signBit + bits else bits) = x)
    (inner : Option (Reader Item)) (rest : Text) :
    readWith inner (encodeFormat f width info x.isNegative bits ++ rest) =
      some (.float x, rest) := by
  rw [readWith_encodeFormat hwidth hinfo _ (signed_lt _ hsize hbits), hitem, hwiden]

theorem bits_lt_of_exactIn {f : Format} {s : Format.Scaled} {bits : Nat}
    (h : exactIn? f s = some bits) : bits < f.signBit := by
  unfold exactIn? at h
  dsimp only at h
  split at h
  · rename_i hexact
    obtain rfl := Option.some.inj h
    exact Nat.lt_trans hexact.1 (infinity_lt_signBit f)
  · cases h

/-- A number is read back from the shortest format that keeps its value.  Of the bits that stand
for no number only one pattern is written. -/
theorem reads_float (hnan : x.isNaN = true → x = .nan) : Reads levels (.float x) true := by
  apply reads_of_readWith
  intro inner rest
  rw [encode]
  unfold encodeFloat
  split
  · -- no number
    rename_i h
    rw [hnan h, readWith_encodeFormat rfl (by decide) _ (by decide)]
    rfl
  split
  · -- an infinite number, which every format has
    rename_i h
    have hself : Binary64.infinite x.isNegative = x := by
      have hmagnitude : x.magnitude = Format.double.infinity := of_decide_eq_true h
      rw [Binary64.infinite, ← hmagnitude, Binary64.ofMagnitude_self]
    exact readWith_encodeFormat_widen rfl (by decide) (by decide) (fun _ => rfl)
      (infinity_lt_signBit _) (by rw [widen_infinity, hself]) inner rest
  dsimp only
  split
  · -- 16 bits are enough
    rename_i h
    exact readWith_encodeFormat_widen rfl (by decide) (by decide) (fun _ => rfl)
      (bits_lt_of_exactIn h) (widen_of_exactIn h) inner rest
  split
  · -- 32 bits are enough
    rename_i h
    exact readWith_encodeFormat_widen rfl (by decide) (by decide) (fun _ => rfl)
      (bits_lt_of_exactIn h) (widen_of_exactIn h) inner rest
  · -- all bits are written as they are
    have hlt : x.magnitude < Format.double.signBit := Nat.mod_lt _ (by decide)
    rw [readWith_encodeFormat rfl (by decide) _ (signed_lt _ (by decide) hlt), ← x.toNat_bits]
    show some (Item.float ⟨x.bits.toNat.toUInt64⟩, rest) = _
    rw [Nat.toUInt64_eq, UInt64.ofNat_toNat]

end

/-! ## Lists and maps -/

section

variable {levels : Nat} {items : List Item} {ps : List (Item × Item)}

/-- Items are read one after the other, if each of them is. -/
theorem readTimes_canonicalAll (h : ∀ i ∈ items, Reads levels i.canonical i.withinLimits)
    (rest : Text) :
    readTimes (read levels) items.length (encodeAll (canonicalAll items) ++ rest) =
      if withinLimitsAll items then some (canonicalAll items, rest) else none := by
  induction items with
  | nil => rfl
  | cons i is ih =>
    have hi := h i List.mem_cons_self (encodeAll (canonicalAll is) ++ rest)
    rw [canonicalAll, encodeAll, List.append_assoc, List.length_cons, readTimes, hi,
      withinLimitsAll]
    cases i.withinLimits with
    | false => rfl
    | true =>
      show (readTimes (read levels) is.length _ >>= _) = _
      rw [ih fun b hb => h b (List.mem_cons_of_mem i hb), Bool.true_and]
      cases withinLimitsAll is <;> rfl

/-- So are keys with their values. -/
theorem readTimes_canonicalPairs
    (hkeys : ∀ p ∈ ps, Reads levels p.1.canonical p.1.withinLimits)
    (hvalues : ∀ p ∈ ps, Reads levels p.2.canonical p.2.withinLimits) (rest : Text) :
    readTimes (readPair (read levels)) ps.length (encodePairs (canonicalPairs ps) ++ rest) =
      if withinLimitsPairs ps then some (canonicalPairs ps, rest) else none := by
  induction ps with
  | nil => rfl
  | cons p ps ih =>
    obtain ⟨k, v⟩ := p
    have hk := hkeys (k, v) List.mem_cons_self
      (v.canonical.encode ++ (encodePairs (canonicalPairs ps) ++ rest))
    have hv := hvalues (k, v) List.mem_cons_self (encodePairs (canonicalPairs ps) ++ rest)
    rw [canonicalPairs, encodePairs, List.append_assoc, List.append_assoc, List.length_cons,
      readTimes, readPair, hk, withinLimitsPairs]
    cases k.withinLimits with
    | false => rfl
    | true =>
      show ((read levels _ >>= _) >>= _) = _
      rw [hv, Bool.true_and]
      cases v.withinLimits with
      | false => rfl
      | true =>
        show (readTimes (readPair (read levels)) ps.length _ >>= _) = _
        rw [ih (fun q hq => hkeys q (List.mem_cons_of_mem _ hq))
          fun q hq => hvalues q (List.mem_cons_of_mem _ hq), Bool.true_and]
        cases withinLimitsPairs ps <;> rfl

/-- A list of what is read back is read back, if it is not too long. -/
theorem reads_array (hlength : items.length < 0x10000000000000000)
    (h : ∀ i ∈ items, Reads levels i.canonical i.withinLimits) :
    Reads (levels + 1) (Item.array items).canonical (Item.array items).withinLimits := by
  intro rest
  obtain ⟨info, hhead⟩ := readHead_head (k := .array) (by decide) hlength
    (encodeAll (canonicalAll items) ++ rest)
  rw [canonical, encode, withinLimits, show (canonicalAll items).length = items.length by
    rw [canonicalAll_eq, List.length_map], List.append_assoc, read,
    readWith_of_head hhead (by decide)]
  show ((if items.length ≤ maxElements then readTimes (read levels) items.length _ else none)
    >>= _) = _
  rw [readTimes_canonicalAll h]
  by_cases hlimit : items.length ≤ maxElements
  · rw [if_pos hlimit, decide_eq_true hlimit, Bool.true_and]
    cases withinLimitsAll items <;> rfl
  · rw [if_neg hlimit, decide_eq_false hlimit]
    rfl

/-- So is a map. -/
theorem reads_map (hlength : ps.length < 0x10000000000000000)
    (hkeys : ∀ p ∈ ps, Reads levels p.1.canonical p.1.withinLimits)
    (hvalues : ∀ p ∈ ps, Reads levels p.2.canonical p.2.withinLimits) :
    Reads (levels + 1) (Item.map ps).canonical (Item.map ps).withinLimits := by
  intro rest
  obtain ⟨info, hhead⟩ := readHead_head (k := .map) (by decide) hlength
    (encodePairs (canonicalPairs ps) ++ rest)
  rw [canonical, encode, withinLimits, length_canonicalPairs, List.append_assoc, read,
    readWith_of_head hhead (by decide)]
  show ((if ps.length ≤ maxElements then readTimes (readPair (read levels)) ps.length _
    else none) >>= _) = _
  rw [readTimes_canonicalPairs hkeys hvalues]
  by_cases hlimit : ps.length ≤ maxElements
  · rw [if_pos hlimit, decide_eq_true hlimit, Bool.true_and]
    cases withinLimitsPairs ps <;> rfl
  · rw [if_neg hlimit, decide_eq_false hlimit]
    rfl

/-- What can be written is read back in its canonical form, if it keeps to the limits. -/
theorem IsWritable.reads {i : Item} (h : IsWritable levels i) :
    Reads levels i.canonical i.withinLimits := by
  induction h with
  | unsigned hn => exact reads_unsigned hn
  | negative hn => exact reads_negative hn
  | text ht => exact reads_text ht
  | simple hn => exact reads_simple hn
  | float x =>
    refine reads_float fun hnan => ?_
    split
    · rfl
    · rename_i hnumber
      rw [if_neg hnumber] at hnan
      exact absurd hnan hnumber
  | array hlength _ ih => exact reads_array hlength ih
  | map hlength _ _ ihkeys ihvalues => exact reads_map hlength ihkeys ihvalues

end

/-! ## The codec is lawful -/

mutual

/-- An item and its canonical form have the same bytes. -/
theorem encode_canonical : (i : Item) → i.canonical.encode = i.encode
  | .float x => by
    rw [canonical, encode, encode]
    split
    · rename_i hnan
      rw [encodeFloat, if_pos (by decide), encodeFloat, if_pos hnan]
    · rfl
  | .array items => by
    rw [canonical, encode, encode, encodeAll_canonicalAll items, canonicalAll_eq, List.length_map]
  | .map ps => by
    rw [canonical, encode, encode, encodePairs_canonicalPairs ps, length_canonicalPairs]
  | .tag n content => by rw [canonical, encode, encode, encode_canonical content]
  | .unsigned _ | .negative _ | .bytes _ | .text _ | .brokenText _ | .simple _ => rfl

/-- So have items one after the other. -/
theorem encodeAll_canonicalAll :
    (items : List Item) → encodeAll (canonicalAll items) = encodeAll items
  | [] => rfl
  | i :: is => by
    rw [canonicalAll, encodeAll, encodeAll, encode_canonical i, encodeAll_canonicalAll is]

/-- So have keys with their values. -/
theorem encodePairs_canonicalPairs :
    (ps : List (Item × Item)) → encodePairs (canonicalPairs ps) = encodePairs ps
  | [] => rfl
  | (k, v) :: ps => by
    rw [canonicalPairs, encodePairs, encodePairs, encode_canonical k, encode_canonical v,
      encodePairs_canonicalPairs ps]

end

/-- Bytes that are all of an item are that item. -/
theorem decode_of_reads {i : Item} {ok : Bool} (h : Reads maxLevels i ok) :
    decode i.encode = if ok then some i else none := by
  have hread := h []
  rw [List.append_nil] at hread
  unfold decode
  rw [hread]
  cases ok <;> rfl

/-- The codec of this library has the laws of a codec. -/
theorem isLawful_codec : codec.IsLawful where
  decode_encode i hi := by
    have hdecode := decode_of_reads hi.reads
    rwa [encode_canonical] at hdecode
  encode_canonical := encode_canonical

end StackLift.Item
