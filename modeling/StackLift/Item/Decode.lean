/-
# Reading binary items

Every reader takes bytes and returns what it read with the bytes after it.  Heads may be longer
than they need to be; strings, lists and maps may be of unknown length, which a stop byte ends.
Lists, maps and tags of tags nest at most `maxLevels` deep.
-/
import StackLift.Item.Basic

namespace StackLift.Item

/-- A reader. -/
abbrev Reader (α : Type) := Text → Option (α × Text)

/-! ## Heads -/

/-- The number that bytes spell, the most significant first. -/
def ofBigEndian (t : Text) : Nat := t.foldl (fun n b => 256 * n + b.toNat) 0

/-- Reads `n` bytes. -/
def readBytes (n : Nat) : Reader Text := fun t =>
  let b := t.take n
  if b.length = n then some (b, t.drop n) else none

/-- Reads a number of `n` bytes. -/
def readNumber (n : Nat) : Reader Nat := fun t =>
  (readBytes n t).map fun (b, rest) => (ofBigEndian b, rest)

/-- A head: its kind, the five bits after it, and its number, if it has one. -/
structure Head where
  kind : Kind
  info : Nat
  number : Option Nat
  deriving DecidableEq, Repr

/-- How many bytes the number of a head takes. -/
def numberWidth? : Nat → Option Nat
  | 24 => some 1
  | 25 => some 2
  | 26 => some 4
  | 27 => some 8
  | _ => none

/-- Whether items of a kind may be of unknown length. -/
def Kind.canBeOpen : Kind → Bool
  | .bytes | .text | .array | .map => true
  | _ => false

/-- Reads a head.  A simple value below 32 is not written in a byte of its own. -/
def readHead : Reader Head
  | [] => none
  | b :: rest =>
    let kind := Kind.ofCode (b.toNat / 32)
    let info := b.toNat % 32
    if info < 24 then some (⟨kind, info, some info⟩, rest)
    else if info = 31 then if kind.canBeOpen then some (⟨kind, info, none⟩, rest) else none
    else do
      let width ← numberWidth? info
      let (n, rest) ← readNumber width rest
      if kind = .simple ∧ info = 24 ∧ n < 32 then none else some (⟨kind, info, some n⟩, rest)

/-! ## Sequences -/

/-- Reads `n` times. -/
def readTimes (read : Reader α) : Nat → Reader (List α)
  | 0, t => some ([], t)
  | n + 1, t => do
    let (a, t) ← read t
    let (as, t) ← readTimes read n t
    some (a :: as, t)

/-- Reads up to a stop byte, at most `limit` times. -/
def readUntilStop (read : Reader α) (limit : Nat) (t : Text) : Option (List α × Text) :=
  match t with
  | [] => none
  | b :: rest =>
    if b = stop then some ([], rest)
    else
      match limit with
      | 0 => none
      | limit + 1 => do
        let (a, t) ← read t
        let (as, t) ← readUntilStop read limit t
        some (a :: as, t)

/-- The most elements that a list may have, and pairs that a map may have. -/
def maxElements : Nat := 131072

/-- Reads as many times as a head tells. -/
def readCounted (read : Reader α) : Option Nat → Reader (List α)
  | some n, t => if n ≤ maxElements then readTimes read n t else none
  | none, t => readUntilStop read maxElements t

/-! ## Strings -/

/-- Reads a part of a string of unknown length, which is a string of the same kind. -/
def readChunk (kind : Kind) : Reader Text := fun t => do
  let (h, t) ← readHead t
  if h.kind = kind then readBytes (← h.number) t else none

/-- Reads the parts of a string up to a stop byte, fewer than there are bytes in `room`. -/
def readChunks (kind : Kind) : (room : Text) → Reader (List Text)
  | [], _ => none
  | _ :: room, t => do
    match t with
    | [] => none
    | b :: rest =>
      if b = stop then some ([], rest)
      else
        let (part, t) ← readChunk kind t
        let (parts, t) ← readChunks kind room t
        some (part :: parts, t)

/-- Reads the parts of a string; there is one if the length is known. -/
def readParts (kind : Kind) : Option Nat → Reader (List Text)
  | some n, t => (readBytes n t).map fun (b, t) => ([b], t)
  | none, t => readChunks kind t t

/-- The text of parts.  A text that is a single part is judged only where it is needed. -/
def textItem : List Text → Item
  | [t] => .text t
  | parts => if parts.all fun t => t.toString?.isSome then .text parts.flatten else .brokenText parts

/-! ## Floating-point numbers -/

/-- The number of 64 bits with the value that bits have in a format. -/
def widen (f : Number.Format) (bits : Nat) : Number.Binary64 :=
  open Number in
  let negative := f.signBit ≤ bits
  let magnitude := bits % f.signBit
  if f.infinity < magnitude then .nan
  else if magnitude = f.infinity then .infinite negative
  else .ofMagnitude negative (Format.double.roundScaled (f.unpack magnitude))

/-- The item of a head of the last kind. -/
def simpleItem (info n : Nat) : Item :=
  match info with
  | 25 => .float (widen .half n)
  | 26 => .float (widen .single n)
  | 27 => .float ⟨n.toUInt64⟩
  | _ => .simple n

/-! ## Items -/

/-- Reads two items. -/
def readPair (read : Reader Item) : Reader (Item × Item) := fun t => do
  let (k, t) ← read t
  let (v, t) ← read t
  some ((k, v), t)

/-- Reads an item without a tag after its head, the items inside of it with another reader, which
is missing if there may be none. -/
def readBody (inner : Option (Reader Item)) (h : Head) : Reader Item := fun t =>
  match h.kind with
  | .unsigned => do some (.unsigned (← h.number), t)
  | .negative => do some (.negative (← h.number), t)
  | .bytes => (readParts .bytes h.number t).map fun (parts, t) => (.bytes parts.flatten, t)
  | .text => (readParts .text h.number t).map fun (parts, t) => (textItem parts, t)
  | .array => do
    let (items, t) ← readCounted (← inner) h.number t
    some (.array items, t)
  | .map => do
    let (pairs, t) ← readCounted (readPair (← inner)) h.number t
    some (.map pairs, t)
  | .tag => none
  | .simple => do some (simpleItem h.info (← h.number), t)

/-- Reads an item.  A tag takes no level of its own, but the tags right after it do. -/
def readWith (inner : Option (Reader Item)) : Reader Item := fun t => do
  let (h, t) ← readHead t
  if h.kind = .tag then do
    let n ← h.number
    let (h', t') ← readHead t
    let (content, t) ← if h'.kind = .tag then (← inner) t else readBody inner h' t'
    some (.tag n content, t)
  else readBody inner h t

/-- Reads an item that nests at most so deep. -/
def read : (levels : Nat) → Reader Item
  | 0 => readWith none
  | levels + 1 => readWith (some (read levels))

/-- How deep items may nest. -/
def maxLevels : Nat := 32

/-- The item that bytes are, all of them. -/
def decode (t : Text) : Option Item :=
  match read maxLevels t with
  | some (i, []) => some i
  | _ => none

end StackLift.Item
