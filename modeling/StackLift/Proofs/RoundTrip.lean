/-
# The hand-off form is read back

The bytes of a function of the hand-off form are the bytes of one item, and the record that this
item is has the fields of the function.  Fields that are left out come back as zero or empty, and
what is no number comes back as the one quiet value.  Two things are refused: a list with too many
elements, and a constant or the name of a keyword that is no valid text.

All of this holds with any codec that keeps its laws, and so with the one of this library.

* `Function.writes_toItem` : the item of a function can be written;
* `Function.ofItem?_toItem` : its record is read back;
* `Function.decodeWith_encodeWith` : what the bytes are read as that a lawful codec writes;
* `Function.decode_encode_eq` : what the bytes of a function are read as here.
-/
import StackLift.Handoff.Decode
import StackLift.Handoff.Encode
import StackLift.Proofs.Items
import StackLift.Proofs.Text

namespace StackLift.Handoff

open Item Number

/-! ## Functions that can be written -/

/-- Whether a length can be written. -/
def IsLength (n : Nat) : Prop := n < 0x10000000000000000

instance (n : Nat) : Decidable (IsLength n) := inferInstanceAs (Decidable (n < _))

/-- Whether a string is not too long to be written. -/
def IsShort (s : String) : Prop := IsLength (Text.ofString s).length

instance (s : String) : Decidable (IsShort s) := inferInstanceAs (Decidable (IsLength _))

/-- Whether a constant is nothing, a truth value, a number of 64 bits or a text. -/
def IsConstant : Datum → Prop
  | .null | .bool _ | .float _ => True
  | .int n => isInt64 n = true
  | .text t => IsLength t.length
  | _ => False

instance : (d : Datum) → Decidable (IsConstant d)
  | .null | .bool _ | .float _ => .isTrue trivial
  | .int n => inferInstanceAs (Decidable (isInt64 n = true))
  | .text t => inferInstanceAs (Decidable (IsLength t.length))
  | .simple _ | .bytes _ | .list _ | .map _ => .isFalse not_false

/-- Whether numbers have 64 bits and there are not too many of them. -/
structure AreInt64 (l : List Int) : Prop where
  int64 : ∀ n ∈ l, isInt64 n = true
  length : IsLength l.length

instance (l : List Int) : Decidable (AreInt64 l) :=
  decidable_of_iff ((∀ n ∈ l, isInt64 n = true) ∧ IsLength l.length)
    ⟨fun ⟨h, h'⟩ => ⟨h, h'⟩, fun h => ⟨h.int64, h.length⟩⟩

/-- The values that a keyword may hold. -/
structure Keyword.IsEncodable (k : Keyword) : Prop where
  name : IsLength k.name.length
  value : isInt64 k.value = true

instance (k : Keyword) : Decidable k.IsEncodable :=
  decidable_of_iff (IsLength k.name.length ∧ isInt64 k.value = true)
    ⟨fun ⟨h, h'⟩ => ⟨h, h'⟩, fun h => ⟨h.name, h.value⟩⟩

/-- The values that an incoming value may hold. -/
structure Incoming.IsEncodable (i : Incoming) : Prop where
  block : isInt64 i.block = true
  value : isInt64 i.value = true

instance (i : Incoming) : Decidable i.IsEncodable :=
  decidable_of_iff (isInt64 i.block = true ∧ isInt64 i.value = true)
    ⟨fun ⟨h, h'⟩ => ⟨h, h'⟩, fun h => ⟨h.block, h.value⟩⟩

/-- The values that the fields of a value may hold. -/
structure Inst.IsEncodable (x : Inst) : Prop where
  numbers : ∀ n ∈ [x.id, x.line, x.num, x.value, x.calleeId, x.slot], isInt64 n = true
  strings : ∀ s ∈ [x.kind, x.name, x.callee], IsShort s
  const : IsConstant x.const
  args : AreInt64 x.args
  keywords : ∀ k ∈ x.keywords, k.IsEncodable
  incomings : ∀ i ∈ x.incomings, i.IsEncodable
  lengths : IsLength x.keywords.length ∧ IsLength x.incomings.length

instance (x : Inst) : Decidable x.IsEncodable :=
  decidable_of_iff
    ((∀ n ∈ [x.id, x.line, x.num, x.value, x.calleeId, x.slot], isInt64 n = true) ∧
      (∀ s ∈ [x.kind, x.name, x.callee], IsShort s) ∧ IsConstant x.const ∧ AreInt64 x.args ∧
      (∀ k ∈ x.keywords, k.IsEncodable) ∧ (∀ i ∈ x.incomings, i.IsEncodable) ∧
      (IsLength x.keywords.length ∧ IsLength x.incomings.length))
    ⟨fun ⟨h, h₁, h₂, h₃, h₄, h₅, h₆⟩ => ⟨h, h₁, h₂, h₃, h₄, h₅, h₆⟩,
      fun h => ⟨h.numbers, h.strings, h.const, h.args, h.keywords, h.incomings, h.lengths⟩⟩

/-- The values that a terminator may hold. -/
structure Term.IsEncodable (t : Term) : Prop where
  kind : IsShort t.kind
  value : isInt64 t.value = true
  targets : AreInt64 t.targets

instance (t : Term) : Decidable t.IsEncodable :=
  decidable_of_iff (IsShort t.kind ∧ isInt64 t.value = true ∧ AreInt64 t.targets)
    ⟨fun ⟨h, h₁, h₂⟩ => ⟨h, h₁, h₂⟩, fun h => ⟨h.kind, h.value, h.targets⟩⟩

/-- The values that a block may hold. -/
structure Block.IsEncodable (b : Block) : Prop where
  offset : isInt64 b.offset = true
  preds : AreInt64 b.preds
  succs : AreInt64 b.succs
  insts : ∀ x ∈ b.insts, x.IsEncodable
  length : IsLength b.insts.length
  term : b.term.IsEncodable

instance (b : Block) : Decidable b.IsEncodable :=
  decidable_of_iff
    (isInt64 b.offset = true ∧ AreInt64 b.preds ∧ AreInt64 b.succs ∧
      (∀ x ∈ b.insts, x.IsEncodable) ∧ IsLength b.insts.length ∧ b.term.IsEncodable)
    ⟨fun ⟨h, h₁, h₂, h₃, h₄, h₅⟩ => ⟨h, h₁, h₂, h₃, h₄, h₅⟩,
      fun h => ⟨h.offset, h.preds, h.succs, h.insts, h.length, h.term⟩⟩

/-- The values that a function may hold: numbers of 64 bits, and strings and lists with a length
of 64 bits. -/
structure Function.IsEncodable (f : Function) : Prop where
  name : IsShort f.name
  args : ∀ s ∈ f.args, IsShort s
  blocks : ∀ b ∈ f.blocks, b.IsEncodable
  lengths : IsLength f.args.length ∧ IsLength f.blocks.length

instance (f : Function) : Decidable f.IsEncodable :=
  decidable_of_iff
    (IsShort f.name ∧ (∀ s ∈ f.args, IsShort s) ∧ (∀ b ∈ f.blocks, b.IsEncodable) ∧
      (IsLength f.args.length ∧ IsLength f.blocks.length))
    ⟨fun ⟨h, h₁, h₂, h₃⟩ => ⟨h, h₁, h₂, h₃⟩, fun h => ⟨h.name, h.args, h.blocks, h.lengths⟩⟩

/-! ## Limits -/

/-- Whether a list has at most as many elements as are read. -/
def fits (l : List α) : Bool := l.length ≤ maxElements

/-- Whether no list of a value is too long. -/
def Inst.fits (x : Inst) : Bool :=
  Handoff.fits x.args && Handoff.fits x.keywords && Handoff.fits x.incomings

/-- Whether no list of a block is too long. -/
def Block.fits (b : Block) : Bool :=
  Handoff.fits b.preds && Handoff.fits b.succs && (Handoff.fits b.insts && b.insts.all Inst.fits) &&
    Handoff.fits b.term.targets

/-- Whether no list of a function is too long. -/
def Function.fits (f : Function) : Bool :=
  Handoff.fits f.args && (Handoff.fits f.blocks && f.blocks.all Block.fits)

/-! ## Valid texts -/

/-- Whether bytes are a string. -/
def isValid (t : Text) : Bool := t.toString?.isSome

/-- Whether a constant that is a text is valid. -/
def isValidConstant : Datum → Bool
  | .text t => isValid t
  | _ => true

/-- Whether the texts of a value are valid. -/
def Inst.isValid (x : Inst) : Bool :=
  isValidConstant x.const && x.keywords.all fun k => Handoff.isValid k.name

/-- Whether the texts of a function are valid. -/
def Function.isValid (f : Function) : Bool := f.blocks.all fun b => b.insts.all Inst.isValid

/-! ## What is no number -/

/-- A constant, with one pattern of bits for what is no number. -/
def canonicalConstant : Datum → Datum
  | .float x => .float (if x.isNaN then .nan else x)
  | d => d

/-- A value with a canonical constant. -/
def Inst.canonical (x : Inst) : Inst := { x with const := canonicalConstant x.const }

/-- A block with canonical constants. -/
def Block.canonical (b : Block) : Block := { b with insts := b.insts.map Inst.canonical }

/-- A function with canonical constants. -/
def Function.canonical (f : Function) : Function :=
  { f with blocks := f.blocks.map Block.canonical }

/-! ## Writing the items -/

section

variable {α : Type} {levels n m : Nat} {ok ok' : Bool}

/-- Whether an item can be written, and whether it keeps to the limits of reading. -/
structure Writes (levels : Nat) (i : Item) (ok : Bool) : Prop where
  isWritable : IsWritable levels i
  withinLimits_eq : i.withinLimits = ok

/-- A number of 64 bits is written in either sign. -/
theorem writes_int {v : Int} (hv : isInt64 v = true) : Writes levels (.int v) true := by
  refine ⟨isWritable_int hv, ?_⟩
  unfold Item.int
  split <;> rfl

/-- A text is written with its length. -/
theorem writes_text {t : Text} (ht : IsLength t.length) : Writes levels (.text t) true :=
  ⟨.text ht, rfl⟩

theorem writes_stringItem {s : String} (hs : IsShort s) : Writes levels (stringItem s) true :=
  writes_text hs

theorem writes_nothing : Writes levels .nothing true := ⟨.simple (by decide), rfl⟩

/-- A list can be written if its elements can, and keeps to the limits if they do and it is not too
long. -/
theorem writes_array {item : α → Item} {good : α → Bool} {l : List α} (hl : IsLength l.length)
    (h : ∀ a ∈ l, Writes levels (item a) (good a)) :
    Writes (levels + 1) (.array (l.map item)) (fits l && l.all good) := by
  constructor
  · refine .array (by rwa [List.length_map]) fun i hi => ?_
    obtain ⟨a, ha, rfl⟩ := List.mem_map.1 hi
    exact (h a ha).isWritable
  · have hall : (l.map item).all withinLimits = l.all good := by
      rw [List.all_map, Bool.eq_iff_iff, List.all_eq_true, List.all_eq_true]
      exact forall₂_congr fun a ha => by rw [Function.comp_apply, (h a ha).withinLimits_eq]
    rw [withinLimits, withinLimitsAll_eq, hall, List.length_map, fits]

/-- Whether fields, at most `n` of them, can be written, and whether they keep to the limits. -/
structure WritesFields (levels n : Nat) (ps : List (Item × Item)) (ok : Bool) : Prop where
  length : ps.length ≤ n
  keys : ∀ p ∈ ps, IsWritable levels p.1
  values : ∀ p ∈ ps, IsWritable levels p.2
  withinLimits_eq : withinLimitsPairs ps = ok

/-- Fields are within the limits if those of both parts are. -/
theorem withinLimitsPairs_append (ps qs : List (Item × Item)) :
    withinLimitsPairs (ps ++ qs) = (withinLimitsPairs ps && withinLimitsPairs qs) := by
  induction ps with
  | nil => rfl
  | cons p ps ih =>
    rw [List.cons_append, withinLimitsPairs, withinLimitsPairs, ih, ← Bool.and_assoc]

/-- Fields may be written in parts, and their numbers add up. -/
theorem WritesFields.append {ps qs : List (Item × Item)} (hps : WritesFields levels n ps ok)
    (hqs : WritesFields levels m qs ok') : WritesFields levels (n + m) (ps ++ qs) (ok && ok') where
  length := by
    rw [List.length_append]
    exact Nat.add_le_add hps.length hqs.length
  keys p hp := (List.mem_append.1 hp).elim (hps.keys p) (hqs.keys p)
  values p hp := (List.mem_append.1 hp).elim (hps.values p) (hqs.values p)
  withinLimits_eq := by
    rw [withinLimitsPairs_append, hps.withinLimits_eq, hqs.withinLimits_eq]

/-- Fields of which there are not too many are a record that can be written. -/
theorem WritesFields.writes_map {ps : List (Item × Item)} (h : WritesFields levels n ps ok)
    (hn : n ≤ maxElements) (hok : ok = ok') : Writes (levels + 1) (.map ps) ok' := by
  have hlength : ps.length ≤ maxElements := Nat.le_trans h.length hn
  refine ⟨.map (Nat.lt_of_le_of_lt hlength (by decide)) h.keys h.values, ?_⟩
  rw [withinLimits, decide_eq_true hlength, Bool.true_and, h.withinLimits_eq, hok]

/-- A field is written as its key and what it holds. -/
theorem writesFields_field {key : Nat} {i : Item} (hkey : key < 0x10000000000000000)
    (hi : Writes levels i ok) : WritesFields levels 1 (field key i) ok where
  length := Nat.le_refl 1
  keys p hp := by
    rw [List.mem_singleton.1 hp]
    exact .unsigned hkey
  values p hp := by
    rw [List.mem_singleton.1 hp]
    exact hi.isWritable
  withinLimits_eq := by
    change (true && i.withinLimits && true) = ok
    rw [hi.withinLimits_eq, Bool.true_and, Bool.and_true]

/-- A field can be written, and keeps to the limits if it is left out. -/
theorem writesFields_fieldUnless {omitted : Bool} {key : Nat} {i : Item}
    (hkey : key < 0x10000000000000000) (hi : Writes levels i ok)
    (homitted : omitted = true → ok = true) :
    WritesFields levels 1 (fieldUnless omitted key i) ok := by
  cases omitted with
  | true =>
    rw [homitted rfl]
    exact ⟨Nat.zero_le 1, fun _ hp => absurd hp List.not_mem_nil,
      fun _ hp => absurd hp List.not_mem_nil, rfl⟩
  | false => exact writesFields_field hkey hi

/-- A number is left out where it is zero, and written otherwise. -/
theorem writesFields_intField {key : Nat} {v : Int} (hkey : key < 0x10000000000000000)
    (hv : isInt64 v = true) : WritesFields levels 1 (intField key v) true :=
  writesFields_fieldUnless hkey (writes_int hv) fun _ => rfl

/-- A string is left out where it is empty, and written otherwise. -/
theorem writesFields_stringField {key : Nat} {s : String} (hkey : key < 0x10000000000000000)
    (hs : IsShort s) : WritesFields levels 1 (stringField key s) true :=
  writesFields_fieldUnless hkey (writes_stringItem hs) fun _ => rfl

/-- A list keeps to the limits if it is not too long and its elements do. -/
theorem writesFields_listField {key : Nat} {item : α → Item} {good : α → Bool} {l : List α}
    (hkey : key < 0x10000000000000000) (hl : IsLength l.length)
    (h : ∀ a ∈ l, Writes levels (item a) (good a)) :
    WritesFields (levels + 1) 1 (listField key item l) (fits l && l.all good) := by
  apply writesFields_fieldUnless hkey (writes_array hl h)
  intro hempty
  rw [List.isEmpty_iff.1 hempty]
  rfl

/-- A list of what always keeps to the limits does if it is not too long. -/
theorem writesFields_listField_of_all {key : Nat} {item : α → Item} {l : List α}
    (hkey : key < 0x10000000000000000) (hl : IsLength l.length)
    (h : ∀ a ∈ l, Writes levels (item a) true) :
    WritesFields (levels + 1) 1 (listField key item l) (fits l) := by
  have hfields := writesFields_listField hkey hl h
  rw [List.all_eq_true.2 fun _ _ => rfl, Bool.and_true] at hfields
  exact hfields

/-- A list of numbers keeps to the limits if it is not too long. -/
theorem writesFields_ints {key : Nat} {l : List Int} (hkey : key < 0x10000000000000000)
    (hl : AreInt64 l) : WritesFields (levels + 1) 1 (listField key .int l) (fits l) :=
  writesFields_listField_of_all hkey hl.length fun n hn => writes_int (hl.int64 n hn)

/-- A keyword is written as two fields. -/
theorem Keyword.writes_toItem {k : Keyword} (hk : k.IsEncodable) :
    Writes (levels + 1) k.toItem true :=
  ((writesFields_field (by decide) (writes_text hk.name)).append
    (writesFields_field (by decide) (writes_int hk.value))).writes_map (by decide) rfl

/-- What flows into a phi is written as two fields. -/
theorem Incoming.writes_toItem {i : Incoming} (hi : i.IsEncodable) :
    Writes (levels + 1) i.toItem true :=
  ((writesFields_field (by decide) (writes_int hi.block)).append
    (writesFields_field (by decide) (writes_int hi.value))).writes_map (by decide) rfl

/-- A constant is nothing, a truth value, a number or a text, all of which can be written. -/
theorem writes_constant {d : Datum} (hd : IsConstant d) : Writes levels d.toItem true := by
  cases d with
  | null => exact writes_nothing
  | bool b => cases b <;> exact ⟨.simple (by decide), rfl⟩
  | int n => exact writes_int hd
  | float x => exact ⟨.float x, rfl⟩
  | text t => exact writes_text hd
  | simple n => exact hd.elim
  | bytes b => exact hd.elim
  | list items => exact hd.elim
  | map pairs => exact hd.elim

/-- A value can be written. -/
theorem Inst.writes_toItem {x : Inst} (hx : x.IsEncodable) :
    Writes (levels + 3) x.toItem x.fits := by
  have hint : ∀ {key n}, key < 0x10000000000000000 →
      n ∈ [x.id, x.line, x.num, x.value, x.calleeId, x.slot] →
      WritesFields (levels + 2) 1 (intField key n) true := fun hkey hn =>
    writesFields_intField hkey (hx.numbers _ hn)
  have hstring : ∀ {key s}, key < 0x10000000000000000 → s ∈ [x.kind, x.name, x.callee] →
      WritesFields (levels + 2) 1 (stringField key s) true := fun hkey hs =>
    writesFields_stringField hkey (hx.strings _ hs)
  unfold toItem
  refine WritesFields.writes_map (WritesFields.append (WritesFields.append (WritesFields.append
    (WritesFields.append (WritesFields.append (WritesFields.append (WritesFields.append
    (WritesFields.append (WritesFields.append (WritesFields.append (WritesFields.append
    (WritesFields.append
      (writesFields_field (by decide) (writes_int (hx.numbers _ (by simp))))
      (hint (by decide) (by simp)))
      (writesFields_field (by decide) (writes_stringItem (hx.strings _ (by simp)))))
      (hint (by decide) (by simp)))
      (hstring (by decide) (by simp)))
      (writesFields_fieldUnless (by decide) (writes_constant hx.const) fun _ => rfl))
      (hint (by decide) (by simp)))
      (hstring (by decide) (by simp)))
      (hint (by decide) (by simp)))
      (writesFields_ints (by decide) hx.args))
      (writesFields_listField_of_all (by decide) hx.lengths.1
        fun k hk => Keyword.writes_toItem (hx.keywords k hk)))
      (hint (by decide) (by simp)))
      (writesFields_listField_of_all (by decide) hx.lengths.2
        fun i hi => Incoming.writes_toItem (hx.incomings i hi))) (by decide) ?_
  simp only [Bool.true_and, Bool.and_true, fits]

/-- A terminator is written if its targets are not too many. -/
theorem Term.writes_toItem {t : Term} (ht : t.IsEncodable) :
    Writes (levels + 2) t.toItem (fits t.targets) :=
  (((writesFields_field (by decide) (writes_stringItem ht.kind)).append
    (writesFields_intField (by decide) ht.value)).append
    (writesFields_ints (by decide) ht.targets)).writes_map (by decide) rfl

/-- A block can be written. -/
theorem Block.writes_toItem {b : Block} (hb : b.IsEncodable) :
    Writes (levels + 5) b.toItem b.fits := by
  refine ((((writesFields_field (by decide) (writes_int hb.offset)).append
    (writesFields_ints (by decide) hb.preds)).append
    (writesFields_ints (by decide) hb.succs)).append
    (writesFields_listField (by decide) hb.length fun x hx =>
      Inst.writes_toItem (hb.insts x hx))).append
    (writesFields_field (by decide) (Term.writes_toItem hb.term)) |>.writes_map (by decide) ?_
  rfl

/-- The blocks are written if they are not too many and each of them can be. -/
theorem writes_blocksItem {bs : List Block} (hlength : IsLength bs.length)
    (hbs : ∀ b ∈ bs, b.IsEncodable) :
    Writes (levels + 6) (blocksItem bs) (fits bs && bs.all Block.fits) := by
  unfold blocksItem
  cases hempty : bs.isEmpty with
  | true =>
    rw [List.isEmpty_iff.1 hempty]
    exact writes_nothing
  | false => exact writes_array hlength fun b hb => Block.writes_toItem (hbs b hb)

/-- A function can be written, and keeps to the limits if none of its lists is too long. -/
theorem Function.writes_toItem {f : Function} (hf : f.IsEncodable) :
    Writes (levels + 7) f.toItem f.fits := by
  refine ((writesFields_field (by decide) (writes_stringItem hf.name)).append
    (writesFields_listField_of_all (by decide) hf.lengths.1 fun s hs =>
      writes_stringItem (hf.args s hs))).append
    (writesFields_field (by decide) (writes_blocksItem hf.lengths.2 hf.blocks)) |>.writes_map
      (by decide) ?_
  rfl

end

/-! ## Fields of records -/

section

variable {α : Type} {omitted : Bool} {key : Nat} {i : Item} {r : Record}

/-- The item under a key of a map, where the first pair with that key counts. -/
def lookup (i : Item) (key : Nat) : Option Item :=
  match i with
  | .map ps => (ps.find? fun p => (fieldKey? p.1).any (·.isFor key)).map (·.2)
  | _ => none

/-- Whether an item is a map whose keys may be keys of fields. -/
def hasKeys : Item → Bool
  | .map ps => ps.all fun p => (fieldKey? p.1).isSome
  | _ => false

/-- The record of a map has under each key what the map has. -/
theorem exists_record (i : Item) (h : hasKeys i = true) :
    ∃ r, toRecord? i = some r ∧ ∀ key, r.get? key = lookup i key := by
  cases i with
  | map ps =>
    show ∃ r, fields? ps = some r ∧ _
    induction ps with
    | nil => exact ⟨[], rfl, fun _ => rfl⟩
    | cons p ps ih =>
      obtain ⟨hp, hps⟩ := Bool.and_eq_true_iff.1 h
      obtain ⟨k, hk⟩ := Option.isSome_iff_exists.1 hp
      obtain ⟨r, hr, hget⟩ := ih hps
      refine ⟨(k, p.2) :: r, ?_, ?_⟩
      · show (fieldKey? p.1 >>= fun k => fields? ps >>= fun r => some ((k, p.2) :: r)) = _
        rw [hk, hr]
        rfl
      · intro key
        have hkey := hget key
        unfold Record.get? lookup at hkey ⊢
        dsimp only at hkey ⊢
        by_cases hfor : k.isFor key = true
        · rw [List.find?_cons_of_pos, List.find?_cons_of_pos (by rw [hk]; exact hfor)]
          · rfl
          · exact hfor
        · rw [List.find?_cons_of_neg, List.find?_cons_of_neg (by rw [hk]; exact hfor)]
          · exact hkey
          · exact hfor
  | _ => cases h

/-- All keys are numbers if those of both parts are. -/
@[simp] theorem hasKeys_append (ps qs : List (Item × Item)) :
    hasKeys (.map (ps ++ qs)) = (hasKeys (.map ps) && hasKeys (.map qs)) := List.all_append

/-- A field has a number for its key. -/
@[simp] theorem hasKeys_field (key : Nat) (i : Item) : hasKeys (.map (field key i)) = true := rfl

/-- So has one that may be left out. -/
@[simp] theorem hasKeys_fieldUnless (omitted : Bool) (key : Nat) (i : Item) :
    hasKeys (.map (fieldUnless omitted key i)) = true := by
  cases omitted with
  | true => rfl
  | false => exact hasKeys_field key i

/-- A key is looked up in the first part, and then in the second one. -/
@[simp] theorem lookup_append (ps qs : List (Item × Item)) (key : Nat) :
    lookup (.map (ps ++ qs)) key = (lookup (.map ps) key).or (lookup (.map qs) key) := by
  unfold lookup
  dsimp only
  rw [List.find?_append, Option.map_or]

/-- A field is found under its own key only. -/
@[simp] theorem lookup_field {key' : Nat} (hkey : key < 9223372036854775808) (i : Item) :
    lookup (.map (field key i)) key' = if key = key' then some i else none := by
  have hwrap : wrap key = key := wrap_of_isInt64 (decide_eq_true (by omega))
  unfold lookup field
  dsimp only
  rw [List.find?_singleton, fieldKey?, hwrap, Option.any_some, FieldKey.isFor]
  by_cases h : key = key'
  · rw [h, if_pos (beq_self_eq_true _), if_pos rfl, Option.map_some]
  · rw [if_neg, if_neg h, Option.map_none]
    rw [beq_iff_eq, Int.ofNat_inj]
    exact h

/-- A field that was left out is not found. -/
@[simp] theorem lookup_fieldUnless (omitted : Bool) (key key' : Nat) (i : Item) :
    lookup (.map (fieldUnless omitted key i)) key' =
      if omitted then none else lookup (.map (field key i)) key' := by
  cases omitted <;> rfl

/-! ## Values of fields -/

/-- What a record holds under a key is read from there. -/
theorem value?_of_get? {read : Item → Option α} {zero : α} (hget : r.get? key = some i) :
    r.value? key read zero = read i := by
  unfold Record.value?
  rw [hget]

/-- The value of a field that is left out only if it is zero. -/
theorem value?_eq {read : Item → Option α} {zero : α} {v : Option α}
    (hget : r.get? key = if omitted then none else some i) (hread : read i = v)
    (hzero : omitted = true → v = some zero) : r.value? key read zero = v := by
  unfold Record.value?
  rw [hget]
  cases omitted with
  | true => exact (hzero rfl).symm
  | false => exact hread

/-- A number of 64 bits is read as it was written, in either sign. -/
theorem toInt64?_int {n : Int} (hn : isInt64 n = true) : toInt64? (.int n) = some n := by
  unfold toInt64? Item.int
  split
  · exact Option.bind_eq_some_iff.2 ⟨_, rfl, Option.bind_eq_some_iff.2
      ⟨n, congrArg some (Int.toNat_of_nonneg ‹_›), if_pos hn⟩⟩
  · exact Option.bind_eq_some_iff.2 ⟨_, rfl, Option.bind_eq_some_iff.2
      ⟨n, congrArg some (by omega), if_pos hn⟩⟩

/-- A string is read as it was written. -/
theorem toString?_stringItem (s : String) : Item.toString? (stringItem s) = some s := by
  have hself := Text.toString?_ofString s
  show ((if (Text.ofString s).toString?.isSome then some (Text.ofString s) else none) >>= _) = _
  rw [hself]
  exact hself

/-- The elements of a list are read if each of them is. -/
theorem toList?_array {item : α → Item} {element : Item → Option α} {good : α → Bool} {l : List α}
    (h : ∀ a ∈ l, element (item a) = if good a then some a else none) :
    toList? element (.array (l.map item)) = if l.all good then some l else none := by
  show (l.map item).mapM element = _
  induction l with
  | nil => rfl
  | cons a l ih =>
    rw [List.map_cons, List.mapM_cons, h a List.mem_cons_self, List.all_cons,
      ih fun b hb => h b (List.mem_cons_of_mem a hb)]
    cases good a with
    | false => rfl
    | true => cases l.all good <;> rfl

/-- A number that is always written. -/
theorem intOf_of_get? {n : Int} (hget : r.get? key = some (.int n)) (hn : isInt64 n = true) :
    intOf r key = some n := (value?_of_get? hget).trans (toInt64?_int hn)

/-- A number that is left out if it is zero. -/
theorem intOf_eq {n : Int} (hget : r.get? key = if n == 0 then none else some (.int n))
    (hn : isInt64 n = true) : intOf r key = some n :=
  value?_eq hget (toInt64?_int hn) fun h => congrArg some (eq_of_beq h)

/-- A string that is always written. -/
theorem stringOf_of_get? {s : String} (hget : r.get? key = some (stringItem s)) :
    stringOf r key = some s := (value?_of_get? hget).trans (toString?_stringItem s)

/-- A string that is left out if it is empty. -/
theorem stringOf_eq {s : String}
    (hget : r.get? key = if s == "" then none else some (stringItem s)) :
    stringOf r key = some s :=
  value?_eq hget (toString?_stringItem s) fun h => congrArg some (eq_of_beq h)

/-- A list that is left out if it is empty. -/
theorem listOf_eq {item : α → Item} {element : Item → Option α} {good : α → Bool} {l : List α}
    (hget : r.get? key = if l.isEmpty then none else some (.array (l.map item)))
    (h : ∀ a ∈ l, element (item a) = if good a then some a else none) :
    listOf r key element = if l.all good then some l else none := by
  apply value?_eq hget (toList?_array h)
  intro hempty
  rw [List.isEmpty_iff.1 hempty]
  rfl

/-- A list is read element by element, and a list that was left out is empty. -/
theorem listOf_eq_some {item : α → Item} {element : Item → Option α} {l : List α}
    (hget : r.get? key = if l.isEmpty then none else some (.array (l.map item)))
    (h : ∀ a ∈ l, element (item a) = some a) : listOf r key element = some l := by
  have hgood : ∀ a ∈ l, element (item a) = if (fun _ => true) a then some a else none := h
  rw [listOf_eq hget hgood, List.all_eq_true.2 fun _ _ => rfl, if_pos rfl]

end

/-! ## Reading the records back -/

theorem bind_of_eq_some {α β : Type} {x : Option α} {a : α} (h : x = some a) (k : α → Option β) :
    x >>= k = k a := by
  rw [h]
  rfl

/-- A keyword is read back unless its name is not valid. -/
theorem Keyword.ofItem?_toItem {k : Keyword} (hk : k.IsEncodable) :
    Keyword.ofItem? k.toItem = if Handoff.isValid k.name then some k else none := by
  obtain ⟨r, hr, hget⟩ := exists_record k.toItem (by simp [toItem])
  have hname : r.get? 1 = some (.text k.name) := (hget 1).trans (by simp [toItem])
  have hvalue : r.get? 2 = some (.int k.value) := (hget 2).trans (by simp [toItem])
  unfold Keyword.ofItem?
  rw [bind_of_eq_some hr, value?_of_get? hname, intOf_of_get? hvalue hk.value]
  show ((if Handoff.isValid k.name then some k.name else none) >>= _) = _
  cases Handoff.isValid k.name <;> rfl

/-- What flows into a phi is read back. -/
theorem Incoming.ofItem?_toItem {i : Incoming} (hi : i.IsEncodable) :
    Incoming.ofItem? i.toItem = some i := by
  obtain ⟨r, hr, hget⟩ := exists_record i.toItem (by simp [toItem])
  have hblock : r.get? 1 = some (.int i.block) := (hget 1).trans (by simp [toItem])
  have hvalue : r.get? 2 = some (.int i.value) := (hget 2).trans (by simp [toItem])
  unfold Incoming.ofItem?
  rw [bind_of_eq_some hr, intOf_of_get? hblock hi.block, intOf_of_get? hvalue hi.value]
  rfl

/-- A terminator is read back. -/
theorem Term.ofItem?_toItem {t : Term} (ht : t.IsEncodable) : Term.ofItem? t.toItem = some t := by
  obtain ⟨r, hr, hget⟩ := exists_record t.toItem (by simp [toItem, intField, listField])
  have hkind : r.get? 1 = some (stringItem t.kind) :=
    (hget 1).trans (by simp [toItem, intField, listField])
  have hvalue : r.get? 2 = if t.value == 0 then none else some (.int t.value) :=
    (hget 2).trans (by simp [toItem, intField, listField])
  have htargets : r.get? 3 =
      if t.targets.isEmpty then none else some (.array (t.targets.map .int)) :=
    (hget 3).trans (by simp [toItem, intField, listField])
  unfold Term.ofItem?
  rw [bind_of_eq_some hr, stringOf_of_get? hkind, intOf_eq hvalue ht.value,
    listOf_eq_some htargets fun n hn => toInt64?_int (ht.targets.int64 n hn)]
  rfl

/-- A constant is read back unless it has a text that is not valid. -/
theorem ofItem?_constant {d : Datum} (hd : IsConstant d) :
    Datum.ofItem? d.toItem = if isValidConstant d then some d else none := by
  cases d with
  | null => rfl
  | bool b => cases b <;> rfl
  | int n =>
    have hn : isInt64 n = true := hd
    simp only [isInt64, decide_eq_true_eq] at hn
    show Datum.ofItem? (.int n) = some (.int n)
    unfold Item.int Datum.ofItem?
    split
    · rw [Datum.meaning?, if_pos (by omega)]
      exact congrArg (fun v => some (Datum.int v)) (Int.toNat_of_nonneg ‹_›)
    · rw [Datum.meaning?]
      exact congrArg (fun v => some (Datum.int v)) (by omega)
  | float x => rfl
  | text t =>
    show (Datum.meaning? (.text t)).join = if isValid t then some (.text t) else none
    rw [Datum.meaning?]
    unfold isValid
    split <;> rfl
  | simple n => exact hd.elim
  | bytes b => exact hd.elim
  | list items => exact hd.elim
  | map pairs => exact hd.elim

/-- An instruction is read back if its texts are valid. -/
theorem Inst.ofItem?_toItem {x : Inst} (hx : x.IsEncodable) :
    Inst.ofItem? x.toItem = if x.isValid then some x else none := by
  obtain ⟨r, hr, hget⟩ :=
    exists_record x.toItem (by simp [toItem, intField, stringField, listField])
  have hint {key : Nat} {n : Int}
      (h : lookup x.toItem key = if n == 0 then none else some (.int n))
      (hn : n ∈ [x.id, x.line, x.num, x.value, x.calleeId, x.slot]) : intOf r key = some n :=
    intOf_eq ((hget key).trans h) (hx.numbers n hn)
  have hstring {key : Nat} {s : String}
      (h : lookup x.toItem key = if s == "" then none else some (stringItem s)) :
      stringOf r key = some s := stringOf_eq ((hget key).trans h)
  have hid : intOf r 1 = some x.id :=
    intOf_of_get? ((hget 1).trans (by simp [toItem, intField, stringField, listField]))
      (hx.numbers _ (by simp))
  have hline : intOf r 2 = some x.line :=
    hint (by simp [toItem, intField, stringField, listField]) (by simp)
  have hkind : stringOf r 3 = some x.kind :=
    stringOf_of_get? ((hget 3).trans (by simp [toItem, intField, stringField, listField]))
  have hnum : intOf r 4 = some x.num :=
    hint (by simp [toItem, intField, stringField, listField]) (by simp)
  have hname : stringOf r 5 = some x.name :=
    hstring (by simp [toItem, intField, stringField, listField])
  have hconst : r.value? 6 Datum.ofItem? .null =
      if isValidConstant x.const then some x.const else none := by
    have h : r.get? 6 = if isNull x.const then none else some x.const.toItem :=
      (hget 6).trans (by simp [toItem, intField, stringField, listField])
    apply value?_eq h (ofItem?_constant hx.const)
    intro hnull
    cases hc : x.const <;> rw [hc] at hnull <;> first | rfl | cases hnull
  have hvalue : intOf r 7 = some x.value :=
    hint (by simp [toItem, intField, stringField, listField]) (by simp)
  have hcallee : stringOf r 8 = some x.callee :=
    hstring (by simp [toItem, intField, stringField, listField])
  have hcalleeId : intOf r 9 = some x.calleeId :=
    hint (by simp [toItem, intField, stringField, listField]) (by simp)
  have hargs : listOf r 10 toInt64? = some x.args :=
    listOf_eq_some ((hget 10).trans (by simp [toItem, intField, stringField, listField]))
      fun n hn => toInt64?_int (hx.args.int64 n hn)
  have hkeywords : listOf r 11 Keyword.ofItem? =
      if x.keywords.all (fun k => Handoff.isValid k.name) then some x.keywords else none :=
    listOf_eq ((hget 11).trans (by simp [toItem, intField, stringField, listField]))
      fun k hk => Keyword.ofItem?_toItem (hx.keywords k hk)
  have hslot : intOf r 12 = some x.slot :=
    hint (by simp [toItem, intField, stringField, listField]) (by simp)
  have hincomings : listOf r 13 Incoming.ofItem? = some x.incomings :=
    listOf_eq_some ((hget 13).trans (by simp [toItem, intField, stringField, listField]))
      fun i hi => Incoming.ofItem?_toItem (hx.incomings i hi)
  unfold Inst.ofItem? Inst.isValid
  rw [bind_of_eq_some hr, bind_of_eq_some hid, bind_of_eq_some hline, bind_of_eq_some hkind,
    bind_of_eq_some hnum, bind_of_eq_some hname, hconst]
  -- all fields are read, but the constant and the keywords may be refused
  cases isValidConstant x.const with
  | false => rfl
  | true =>
    rw [bind_of_eq_some (if_pos rfl), bind_of_eq_some hvalue, bind_of_eq_some hcallee,
      bind_of_eq_some hcalleeId, bind_of_eq_some hargs, hkeywords, Bool.true_and]
    cases x.keywords.all fun k => Handoff.isValid k.name with
    | false => rfl
    | true =>
      rw [bind_of_eq_some (if_pos rfl), bind_of_eq_some hslot, bind_of_eq_some hincomings]
      rfl

/-- A block is read back if the texts of its instructions are valid. -/
theorem Block.ofItem?_toItem {b : Block} (hb : b.IsEncodable) :
    Block.ofItem? b.toItem = if b.insts.all Inst.isValid then some b else none := by
  obtain ⟨r, hr, hget⟩ := exists_record b.toItem (by simp [toItem, listField])
  have hoffset : intOf r 1 = some b.offset :=
    intOf_of_get? ((hget 1).trans (by simp [toItem, listField])) hb.offset
  have hpreds : listOf r 2 toInt64? = some b.preds :=
    listOf_eq_some ((hget 2).trans (by simp [toItem, listField])) fun n hn =>
      toInt64?_int (hb.preds.int64 n hn)
  have hsuccs : listOf r 3 toInt64? = some b.succs :=
    listOf_eq_some ((hget 3).trans (by simp [toItem, listField])) fun n hn =>
      toInt64?_int (hb.succs.int64 n hn)
  have hinsts : listOf r 4 Inst.ofItem? =
      if b.insts.all Inst.isValid then some b.insts else none :=
    listOf_eq ((hget 4).trans (by simp [toItem, listField])) fun x hx =>
      Inst.ofItem?_toItem (hb.insts x hx)
  have hterm : r.get? 5 = some b.term.toItem := (hget 5).trans (by simp [toItem, listField])
  unfold Block.ofItem?
  rw [bind_of_eq_some hr, bind_of_eq_some hoffset, bind_of_eq_some hpreds, bind_of_eq_some hsuccs,
    hinsts, value?_of_get? hterm, Term.ofItem?_toItem hb.term]
  cases b.insts.all Inst.isValid <;> rfl

/-- The record of a function is read back if its texts are valid. -/
theorem Function.ofItem?_toItem {f : Function} (hf : f.IsEncodable) :
    Function.ofItem? f.toItem = if f.isValid then some f else none := by
  obtain ⟨r, hr, hget⟩ := exists_record f.toItem (by simp [toItem, listField])
  have hname : stringOf r 1 = some f.name :=
    stringOf_of_get? ((hget 1).trans (by simp [toItem, listField]))
  have hargs : listOf r 2 Item.toString? = some f.args :=
    listOf_eq_some ((hget 2).trans (by simp [toItem, listField])) fun s _ => toString?_stringItem s
  have hblocks : listOf r 3 Block.ofItem? = if f.isValid then some f.blocks else none := by
    have h : r.get? 3 = some (blocksItem f.blocks) := (hget 3).trans (by simp [toItem, listField])
    refine (value?_of_get? h).trans ?_
    unfold blocksItem
    cases hempty : f.blocks.isEmpty with
    | true =>
      rw [Function.isValid, List.isEmpty_iff.1 hempty]
      rfl
    | false => exact toList?_array fun b hb => Block.ofItem?_toItem (hf.blocks b hb)
  unfold Function.ofItem?
  rw [bind_of_eq_some hr, bind_of_eq_some hname, bind_of_eq_some hargs, hblocks]
  cases f.isValid <;> rfl

/-! ## Canonical constants -/

/-- The canonical form of fields is that of their parts. -/
@[simp] theorem canonicalPairs_append (ps qs : List (Item × Item)) :
    canonicalPairs (ps ++ qs) = canonicalPairs ps ++ canonicalPairs qs := by
  induction ps with
  | nil => rfl
  | cons p ps ih => rw [List.cons_append, canonicalPairs, ih, canonicalPairs, List.cons_append]

/-- What is left out has no form, and what is not has its own. -/
@[simp] theorem canonicalPairs_fieldUnless (omitted : Bool) (key : Nat) (i : Item) :
    canonicalPairs (fieldUnless omitted key i) = fieldUnless omitted key i.canonical := by
  cases omitted <;> rfl

@[simp] theorem canonicalPairs_field (key : Nat) (i : Item) :
    canonicalPairs (field key i) = field key i.canonical :=
  canonicalPairs_fieldUnless false key i

/-- A number is canonical. -/
@[simp] theorem canonical_int (v : Int) : (Item.int v).canonical = .int v := by
  unfold Item.int
  split <;> rfl

/-- A string is canonical. -/
@[simp] theorem canonical_stringItem (s : String) : (stringItem s).canonical = stringItem s := rfl

@[simp] theorem canonicalPairs_intField (key : Nat) (v : Int) :
    canonicalPairs (intField key v) = intField key v := by
  rw [intField, canonicalPairs_fieldUnless, canonical_int]

@[simp] theorem canonicalPairs_stringField (key : Nat) (s : String) :
    canonicalPairs (stringField key s) = stringField key s :=
  canonicalPairs_fieldUnless (s == "") key (stringItem s)

/-- The canonical form of a list is that of its elements, which may be changed before. -/
theorem canonical_array {α β : Type} {item : α → Item} {item' : β → Item} {change : α → β}
    {l : List α} (h : ∀ a ∈ l, (item a).canonical = item' (change a)) :
    (Item.array (l.map item)).canonical = .array ((l.map change).map item') := by
  rw [canonical, canonicalAll_eq, List.map_map, List.map_map]
  exact congrArg Item.array (List.map_congr_left h)

/-- The canonical form of a field with a list is that of its elements. -/
theorem canonicalPairs_listField {α β : Type} {item : α → Item} {item' : β → Item}
    {change : α → β} {l : List α} (key : Nat)
    (h : ∀ a ∈ l, (item a).canonical = item' (change a)) :
    canonicalPairs (listField key item l) = listField key item' (l.map change) := by
  rw [listField, canonicalPairs_fieldUnless, canonical_array h, listField, List.isEmpty_map]

/-- A list of what is canonical is canonical. -/
theorem canonicalPairs_listField_of_all {α : Type} {item : α → Item} (key : Nat) (l : List α)
    (h : ∀ a, (item a).canonical = item a) :
    canonicalPairs (listField key item l) = listField key item l := by
  have hid : ∀ a ∈ l, (item a).canonical = item (id a) := fun a _ => h a
  rw [canonicalPairs_listField key hid, List.map_id]

/-- Keywords hold nothing that could be written in two ways. -/
theorem Keyword.canonical_toItem (k : Keyword) : k.toItem.canonical = k.toItem := by
  simp [toItem, canonical]

theorem Incoming.canonical_toItem (i : Incoming) : i.toItem.canonical = i.toItem := by
  simp [toItem, canonical]

/-- Terminators hold nothing that could be written in two ways. -/
theorem Term.canonical_toItem (t : Term) : t.toItem.canonical = t.toItem := by
  simp [toItem, canonical, canonicalPairs_listField_of_all]

/-- Of the constants, floats that are no numbers have another form. -/
theorem canonical_constant {d : Datum} (hd : IsConstant d) :
    d.toItem.canonical = (canonicalConstant d).toItem := by
  cases d with
  | bool b => cases b <;> rfl
  | int n => exact canonical_int n
  | null => rfl
  | float x => rfl
  | text t => rfl
  | simple n => exact hd.elim
  | bytes b => exact hd.elim
  | list items => exact hd.elim
  | map pairs => exact hd.elim

theorem isNull_canonicalConstant (d : Datum) : isNull (canonicalConstant d) = isNull d := by
  cases d <;> rfl

/-- The item of a value with a canonical constant is the canonical form of its item. -/
theorem Inst.canonical_toItem {x : Inst} (hx : x.IsEncodable) :
    x.toItem.canonical = x.canonical.toItem := by
  have hints : canonicalPairs (listField 10 .int x.args) = listField 10 .int x.args :=
    canonicalPairs_listField_of_all 10 x.args canonical_int
  have hkeywords := canonicalPairs_listField_of_all 11 x.keywords Keyword.canonical_toItem
  have hincomings := canonicalPairs_listField_of_all 13 x.incomings Incoming.canonical_toItem
  simp only [toItem, Item.canonical, canonicalPairs_append, canonicalPairs_field,
    canonicalPairs_fieldUnless, canonicalPairs_intField, canonicalPairs_stringField, canonical_int,
    canonical_stringItem, canonical_constant hx.const, hints, hkeywords, hincomings,
    Inst.canonical, isNull_canonicalConstant]

/-- So it is with a block. -/
theorem Block.canonical_toItem {b : Block} (hb : b.IsEncodable) :
    b.toItem.canonical = b.canonical.toItem := by
  have hpreds := canonicalPairs_listField_of_all 2 b.preds canonical_int
  have hsuccs := canonicalPairs_listField_of_all 3 b.succs canonical_int
  have hinsts : canonicalPairs (listField 4 Inst.toItem b.insts) =
      listField 4 Inst.toItem (b.insts.map Inst.canonical) :=
    canonicalPairs_listField 4 fun x hx => Inst.canonical_toItem (hb.insts x hx)
  simp only [toItem, Item.canonical, canonicalPairs_append, canonicalPairs_field, canonical_int,
    hpreds, hsuccs, hinsts, b.term.canonical_toItem, Block.canonical]

/-- The item of a function with canonical constants is the canonical form of its item. -/
theorem Function.canonical_toItem {f : Function} (hf : f.IsEncodable) :
    f.toItem.canonical = f.canonical.toItem := by
  have hargs := canonicalPairs_listField_of_all 2 f.args canonical_stringItem
  have hblocks : (blocksItem f.blocks).canonical = blocksItem (f.blocks.map Block.canonical) := by
    unfold blocksItem
    rw [List.isEmpty_map]
    split
    · rfl
    · exact canonical_array fun b hb => Block.canonical_toItem (hf.blocks b hb)
  simp only [toItem, Item.canonical, canonicalPairs_append, canonicalPairs_field,
    canonical_stringItem, hargs, hblocks, Function.canonical]

/-- The canonical form of an instruction can be encoded if the instruction can. -/
theorem Inst.isEncodable_canonical {x : Inst} (hx : x.IsEncodable) : x.canonical.IsEncodable where
  numbers := hx.numbers
  strings := hx.strings
  const := by
    have hconst := hx.const
    unfold canonical
    cases hc : x.const <;> rw [hc] at hconst <;> exact hconst
  args := hx.args
  keywords := hx.keywords
  incomings := hx.incomings
  lengths := hx.lengths

/-- The canonical form of an instruction has the same texts. -/
theorem Inst.isValid_canonical (x : Inst) : x.canonical.isValid = x.isValid := by
  have hconst : isValidConstant (canonicalConstant x.const) = isValidConstant x.const := by
    cases x.const <;> rfl
  unfold Inst.isValid canonical
  rw [hconst]

/-- The canonical form of a block can be encoded if the block can. -/
theorem Block.isEncodable_canonical {b : Block} (hb : b.IsEncodable) : b.canonical.IsEncodable where
  offset := hb.offset
  preds := hb.preds
  succs := hb.succs
  insts := by
    intro x hx
    obtain ⟨y, hy, rfl⟩ := List.mem_map.1 hx
    exact Inst.isEncodable_canonical (hb.insts y hy)
  length := by
    unfold canonical
    rw [List.length_map]
    exact hb.length
  term := hb.term

/-- The canonical form of a function can be encoded if the function can. -/
theorem Function.isEncodable_canonical {f : Function} (hf : f.IsEncodable) :
    f.canonical.IsEncodable where
  name := hf.name
  args := hf.args
  blocks := by
    intro b hb
    obtain ⟨c, hc, rfl⟩ := List.mem_map.1 hb
    exact Block.isEncodable_canonical (hf.blocks c hc)
  lengths := by
    unfold canonical
    rw [List.length_map]
    exact hf.lengths

/-- The canonical form of a function has the same texts. -/
theorem Function.isValid_canonical (f : Function) : f.canonical.isValid = f.isValid := by
  unfold Function.isValid canonical Block.canonical
  simp only [List.all_map, Function.comp_def, Inst.isValid_canonical]

/-! ## Functions that are read back -/

/-- The bytes that a codec writes for a function. -/
def Function.encodeWith (c : Codec) (f : Function) : Text := c.encode f.toItem

/-- The function that a codec reads from bytes. -/
def Function.decodeWith (c : Codec) (t : Text) : Option Function :=
  c.decode t >>= Function.ofItem?

/-- A lawful codec reads the bytes of a function as the function with canonical constants, or
refuses them: they are refused exactly if a list is too long or a text is not valid. -/
theorem Function.decodeWith_encodeWith {c : Codec} (hc : c.IsLawful) {f : Function}
    (hf : f.IsEncodable) : Function.decodeWith c (f.encodeWith c) =
      if f.fits && f.isValid then some f.canonical else none := by
  have hwrites : Writes maxLevels f.toItem f.fits := Function.writes_toItem hf
  have hitem := hc.decode_encode f.toItem hwrites.isWritable
  rw [hwrites.withinLimits_eq, Function.canonical_toItem hf] at hitem
  have hrecord := Function.ofItem?_toItem (Function.isEncodable_canonical hf)
  rw [f.isValid_canonical] at hrecord
  unfold decodeWith encodeWith
  rw [hitem]
  cases f.fits with
  | false => rfl
  | true => exact hrecord

/-- With a lawful codec, canonical constants do not change the bytes of a function. -/
theorem Function.encodeWith_canonical {c : Codec} (hc : c.IsLawful) {f : Function}
    (hf : f.IsEncodable) : f.canonical.encodeWith c = f.encodeWith c := by
  unfold encodeWith
  rw [← Function.canonical_toItem hf, hc.encode_canonical]

/-- So it is with the codec of this library. -/
theorem Function.decode_encode_eq {f : Function} (hf : f.IsEncodable) :
    Function.decode f.encode = if f.fits && f.isValid then some f.canonical else none :=
  Function.decodeWith_encodeWith isLawful_codec hf

/-- A function comes back from its bytes, with one pattern of bits for what is no number, and what
comes back has the same bytes.  This needs no more than the laws of a codec. -/
theorem Function.decode_encode {f : Function} (hf : f.IsEncodable) (hvalid : f.isValid = true)
    (hfits : f.fits = true) :
    (Function.decode f.encode = some f.canonical ∧ f.canonical.encode = f.encode) ∧
      ∀ c : Codec, c.IsLawful → Function.decodeWith c (f.encodeWith c) = some f.canonical ∧
        f.canonical.encodeWith c = f.encodeWith c := by
  have hlawful : ∀ c : Codec, c.IsLawful →
      Function.decodeWith c (f.encodeWith c) = some f.canonical ∧
        f.canonical.encodeWith c = f.encodeWith c := by
    intro c hc
    refine ⟨?_, Function.encodeWith_canonical hc hf⟩
    rw [Function.decodeWith_encodeWith hc hf, hfits, hvalid]
    rfl
  exact ⟨hlawful codec isLawful_codec, hlawful⟩

/-- A function with values that are easy to lose: an empty text, the two ends of the numbers of 64
bits, and bits that stand for no number but are not the ones that are written. -/
def Function.delicate : Function where
  name := "f"
  args := ["x", ""]
  blocks :=
    [{ offset := 4, preds := [4, 0], succs := [4]
       insts :=
        [{ kind := "const", const := .text [] },
         { id := 1, line := -1, kind := "const", const := .float ⟨0xFFF0000000000001⟩ },
         { id := 2, kind := "const", const := .int (-9223372036854775808) },
         { id := 3, kind := "const", const := .bool false },
         { id := 9223372036854775807, kind := "call", args := [0, 3]
           keywords := [{ name := [0xC3, 0xA9], value := 2 }] },
         { id := 5, kind := "phi", slot := 1, incomings := [{ block := 4, value := 5 }, {}] }]
       term := { kind := "jump", targets := [4] } }]

theorem Function.decode_encode_delicate :
    delicate.IsEncodable ∧ delicate.isValid = true ∧ delicate.fits = true ∧
      Function.decode delicate.encode = some delicate.canonical ∧
      delicate.canonical.encode = delicate.encode :=
  have hf : delicate.IsEncodable := by decide +kernel
  have hvalid : delicate.isValid = true := by decide +kernel
  have hfits : delicate.fits = true := by decide +kernel
  ⟨hf, hvalid, hfits, (Function.decode_encode hf hvalid hfits).1⟩

end StackLift.Handoff
