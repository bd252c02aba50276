/-
# Listings as documents

A listing is written as a TOML document with one key for each of its parts, whose names are
matched without regard to case.  Other keys are refused.
-/
import StackLift.Listing.Basic
import StackLift.Toml.Document

namespace StackLift.Listing

open Toml

/-! ## Fields -/

/-- The parts of a listing. -/
inductive Field
  | name
  | args
  | defaults
  | varargs
  | kwargs
  | varnames
  | names
  | consts
  | firstLine
  | code
  deriving DecidableEq, Repr

/-- All parts with their keys. -/
def Field.keys : List (String × Field) :=
  [("name", .name), ("args", .args), ("defaults", .defaults), ("varargs", .varargs),
    ("kwargs", .kwargs), ("varnames", .varnames), ("names", .names), ("consts", .consts),
    ("firstline", .firstLine), ("code", .code)]

/-- A character without regard to case; the long s and the sign of the kelvin are letters too. -/
def foldCase (c : Char) : Char :=
  if c = '\u017f' then 's' else if c = '\u212a' then 'k' else c.toLower

/-- The part of a listing that a name stands for. -/
def Field.ofName? (s : String) : Option Field :=
  Field.keys.lookup (String.ofList (s.toList.map foldCase))

/-! ## From documents -/

/-- The string that a node is. -/
def stringOf? : Node → Option String
  | .value (.text s) => some s
  | _ => none

/-- The integer that a node is. -/
def integerOf? : Node → Option Int
  | .value (.integer n) => some n
  | _ => none

/-- The list of strings that a node is. -/
def stringsOf? : Node → Option (List String)
  | .value (.array items) => items.mapM fun v => stringOf? (.value v)
  | _ => none

/-- The listing with one part given. -/
def set? (l : Listing) (f : Field) (n : Node) : Option Listing :=
  match f with
  | .name => (stringOf? n).map ({ l with name := · })
  | .args => (stringsOf? n).map ({ l with args := · })
  | .defaults => (integerOf? n).map ({ l with defaults := · })
  | .varargs => (stringOf? n).map ({ l with varargs := · })
  | .kwargs => (stringOf? n).map ({ l with kwargs := · })
  | .varnames => (stringsOf? n).map ({ l with varnames := some · })
  | .names => (stringsOf? n).map ({ l with names := · })
  | .consts => (stringsOf? n).map ({ l with consts := · })
  | .firstLine => (integerOf? n).map ({ l with firstLine := · })
  | .code => (stringOf? n).map ({ l with code := · })

/-- The listing of the entries of a table; entries that are no parts are passed over. -/
def ofTable? (t : Table) : Option Listing :=
  t.foldlM (fun l (name, n) =>
    match Field.ofName? name with
    | some f => set? l f n
    | none => some l) {}

/-- Whether a key is that of a part. -/
def isKnown : Key → Bool
  | [name] => (Field.ofName? name).isSome
  | _ => false

/-- Why a source is no function. -/
inductive SourceError
  /-- It is no document, or a part has a value of a wrong kind. -/
  | malformed
  | unknownKeys (keys : List Key)
  | listing (cause : Error)
  deriving DecidableEq, Repr

/-- How an error is worded. -/
def SourceError.message : SourceError → String
  | .malformed => "decode listing"
  | .unknownKeys keys => "unknown listing keys: " ++ nameList (keys.map Key.text)
  | .listing cause => cause.message

/-- The listing that a source is. -/
def parse (source : String) : Except SourceError Listing :=
  match Document.parse? source with
  | none => .error .malformed
  | some d =>
    match ofTable? d.root with
    | none => .error .malformed
    | some l =>
      let unknown := d.keys.toList.filter fun k => !isKnown k
      if unknown.isEmpty then .ok l else .error (.unknownKeys unknown)

/-- The function that a source describes. -/
def compileSource (source : String) : Except SourceError Code := do
  let l ← parse source
  l.build.mapError .listing

end StackLift.Listing
