/-
# Heads of binary items

A binary item starts with a head: three bits for its kind and a number, which is in the first
byte if it is below 24 and follows in 1, 2, 4 or 8 bytes if it is not.
-/
import StackLift.Text.Basic

namespace StackLift.Item

/-- The last `width` bytes of a number, the most significant first. -/
def bigEndian : Nat → Nat → Text
  | 0, _ => []
  | width + 1, n => bigEndian width (n / 256) ++ [(n % 256).toUInt8]

/-- The kind of an item, by the three bits that say it. -/
inductive Kind
  | unsigned
  | negative
  | bytes
  | text
  | array
  | map
  | tag
  | simple
  deriving DecidableEq, Repr

/-- The number of a kind. -/
def Kind.code : Kind → Nat
  | .unsigned => 0
  | .negative => 1
  | .bytes => 2
  | .text => 3
  | .array => 4
  | .map => 5
  | .tag => 6
  | .simple => 7

/-- The kind with a number. -/
def Kind.ofCode : Nat → Kind
  | 0 => .unsigned
  | 1 => .negative
  | 2 => .bytes
  | 3 => .text
  | 4 => .array
  | 5 => .map
  | 6 => .tag
  | _ => .simple

/-- The first byte of an item, by its kind and the five bits after it. -/
def firstByte (k : Kind) (info : Nat) : UInt8 := (32 * k.code + info).toUInt8

/-- The shortest head of a kind with a number of 64 bits. -/
def head (k : Kind) (n : Nat) : Text :=
  if n < 24 then [firstByte k n]
  else if n < 0x100 then firstByte k 24 :: bigEndian 1 n
  else if n < 0x10000 then firstByte k 25 :: bigEndian 2 n
  else if n < 0x100000000 then firstByte k 26 :: bigEndian 4 n
  else firstByte k 27 :: bigEndian 8 n

/-- The byte that ends an item of unknown length. -/
def stop : UInt8 := 0xFF

/-- The item that stands for nothing. -/
def null : UInt8 := 0xF6

end StackLift.Item
