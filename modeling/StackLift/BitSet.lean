/-
# Sets of keys as bits

A set holds 64-bit keys from its base upwards, one bit for each in a list of words that grows as
needed.  The bit of a key is its distance from the base; that distance wraps around for a key too
far from the base, and a set does not answer for a key whose distance is negative.

* `BitSet.bits` lists the bits that are set, `BitSet.keys` the keys they stand for;
* `hasBit`, `setBit` and `clearBit` work on bits and cannot fail;
* `contains`, `insert` and `erase` work on keys.
-/
import StackLift.Fault
import StackLift.Item.LogRecord
import StackLift.Number.Integer

namespace StackLift

/-- A growable set of keys from `base` on. -/
structure BitSet where
  base : Int
  words : List (BitVec 64)
  deriving DecidableEq, Repr, Inhabited

namespace BitSet

/-- The set without keys. -/
def empty (base : Int) : BitSet := ⟨base, []⟩

/-! ## Bits -/

/-- Whether a bit is set. -/
def hasBit (s : BitSet) (n : Nat) : Bool := (s.words.getD (n / 64) 0).getLsbD (n % 64)

/-- Words with room for one more word up to the index `i`. -/
def growTo (i : Nat) (words : List (BitVec 64)) : List (BitVec 64) :=
  words ++ List.replicate (i + 1 - words.length) 0

/-- The set with one more bit. -/
def setBit (s : BitSet) (n : Nat) : BitSet :=
  { s with words := (growTo (n / 64) s.words).modify (n / 64) (· ||| BitVec.twoPow 64 (n % 64)) }

/-- The set without a bit. -/
def clearBit (s : BitSet) (n : Nat) : BitSet :=
  { s with words := s.words.modify (n / 64) (· &&& ~~~BitVec.twoPow 64 (n % 64)) }

/-- Words with the first `n` bits set. -/
def fullWords (n : Nat) : List (BitVec 64) :=
  List.replicate (n / 64) (BitVec.allOnes 64) ++
    if n % 64 = 0 then [] else [BitVec.allOnes 64 >>> (64 - n % 64)]

/-- The set of the `n` keys from a base on. -/
def fill (base n : Int) : BitSet := ⟨base, fullWords n.toNat⟩

/-- The bits that are set in a word, in ascending order. -/
def wordBits (w : BitVec 64) : List Nat :=
  if w = 0 then [] else (List.range 64).filter w.getLsbD

/-- The bits that are set in words, the first of which has the index `i`. -/
def bitsFrom (i : Nat) : List (BitVec 64) → List Nat
  | [] => []
  | w :: ws => (wordBits w).map (64 * i + ·) ++ bitsFrom (i + 1) ws

/-- The bits of a set, in ascending order. -/
def bits (s : BitSet) : List Nat := bitsFrom 0 s.words

/-- The least bit of words, the first of which has the index `i`. -/
def firstBitFrom (i : Nat) : List (BitVec 64) → Option Nat
  | [] => none
  | w :: ws =>
    match (wordBits w).head? with
    | some j => some (64 * i + j)
    | none => firstBitFrom (i + 1) ws

/-! ## Keys -/

/-- The key that a bit stands for. -/
def key (s : BitSet) (n : Nat) : Int := Number.wrap (s.base + n)

/-- The distance of a key from the base. -/
def distance (s : BitSet) (k : Int) : Int := Number.wrap (k - s.base)

/-- The keys of a set, in ascending order. -/
def keys (s : BitSet) : List Int := s.bits.map s.key

/-- How many keys a set has. -/
def size (s : BitSet) : Nat := s.bits.length

/-- Whether a set has no keys. -/
def isEmpty (s : BitSet) : Bool := s.words.all (· == 0)

/-- The least key of a set. -/
def first? (s : BitSet) : Option Int := (firstBitFrom 0 s.words).map s.key

/-- Adds a key.  A key at a negative distance is out of range; one less than a word away makes
the set grow to one word all the same. -/
def insert (s : BitSet) (k : Int) : EStateM.Result Fault BitSet Unit :=
  let d := s.distance k
  if 0 ≤ d then .ok () (s.setBit d.toNat)
  else .error .outOfRange (if -64 < d then { s with words := growTo 0 s.words } else s)

/-- Whether a set has a key.  It has none below its base; for a key above it whose distance is
negative there is an answer only if the set has no words and the distance is less than one. -/
def contains (s : BitSet) (k : Int) : Except Fault Bool :=
  let d := s.distance k
  if k < s.base then .ok false
  else if 0 ≤ d then .ok (s.hasBit d.toNat)
  else if -64 < d ∧ s.words.isEmpty then .ok false
  else .error .outOfRange

/-- The set without a key, which is out of range where `contains` has no answer. -/
def erase (s : BitSet) (k : Int) : Except Fault BitSet :=
  let d := s.distance k
  if k < s.base then .ok s
  else if 0 ≤ d then .ok (s.clearBit d.toNat)
  else if -64 < d ∧ s.words.isEmpty then .ok s
  else .error .outOfRange

/-- The set of the same base without keys. -/
def clear (s : BitSet) : BitSet := empty s.base

/-! ## Two sets -/

/-- Words that have a bit if either has it. -/
def unionWords : List (BitVec 64) → List (BitVec 64) → List (BitVec 64)
  | [], ys => ys
  | xs, [] => xs
  | x :: xs, y :: ys => (x ||| y) :: unionWords xs ys

/-- Words that have a bit if both have it, as many as the first ones. -/
def interWords : List (BitVec 64) → List (BitVec 64) → List (BitVec 64)
  | [], _ => []
  | _ :: xs, [] => 0 :: interWords xs []
  | x :: xs, y :: ys => (x &&& y) :: interWords xs ys

/-- Whether words are the same up to zeros at the end. -/
def sameWords : List (BitVec 64) → List (BitVec 64) → Bool
  | [], ys => ys.all (· == 0)
  | xs, [] => xs.all (· == 0)
  | x :: xs, y :: ys => x == y && sameWords xs ys

/-- The intersection of sets with the same base. -/
def interBits (s t : BitSet) : BitSet := { s with words := interWords s.words t.words }

/-- Whether sets with the same base have the same keys. -/
def sameBits (s t : BitSet) : Bool := sameWords s.words t.words

/-- Refuses two sets with different bases. -/
def sameBase (s t : BitSet) (a : α) : Except Fault α :=
  if s.base = t.base then .ok a else .error .differentBases

/-- The set with the keys of another one added. -/
def union (s t : BitSet) : Except Fault BitSet :=
  sameBase s t { s with words := unionWords s.words t.words }

/-- The set with the keys only that another one has too. -/
def inter (s t : BitSet) : Except Fault BitSet := sameBase s t (s.interBits t)

/-- Whether two sets have the same keys. -/
def equal (s t : BitSet) : Except Fault Bool := sameBase s t (s.sameBits t)

/-! ## Visiting -/

/-- The elements of a list up to the first on which `continues` fails, that one included. -/
def takeThrough (continues : α → Bool) : List α → List α
  | [] => []
  | a :: as => if continues a then a :: takeThrough continues as else [a]

/-- The keys that are visited in ascending order until `continues` fails on one. -/
def visit (s : BitSet) (continues : Int → Bool) : List Int := takeThrough continues s.keys

/-- A set in a log record. -/
def record (s : BitSet) : Text := Item.LogRecord.openList (s.keys.map Item.LogRecord.int)

end BitSet

end StackLift
