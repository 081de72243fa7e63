/-
The values of a document, and tables under construction.

Settings are strings, integers, lists and tables, and these are the values there are
here.  A document with a value of another sort, a truth value, a number with a
fraction, a date or an array of tables, is no document of settings and is refused as a
whole.

A table of a document may be written in several places, and what may be added to it
depends on how it came to be.  A table with a header of its own is complete where that
header stands, and a header may name a table that so far was only passed through by a
longer header.  A table made by a dotted key may be added to by dotted keys.  A value,
also a table in braces, is closed.  No key is ever given twice.
-/

namespace Schemata.Toml

/-- A value of a document. -/
inductive Value where
  | string (s : String)
  | integer (n : Int)
  | array (elements : List Value)
  | table (entries : List (String × Value))
deriving Repr, Inhabited

/-! ### Tables under construction -/

/-- How a table came to be. -/
inductive Origin where
  /-- A header names it. -/
  | header
  /-- A longer header passes through it. -/
  | passed
  /-- A dotted key passes through it. -/
  | dotted
deriving DecidableEq, Repr

/-- What stands under a key. -/
inductive Item where
  | value (v : Value)
  | table (origin : Origin) (entries : List (String × Item))
deriving Repr, Inhabited

/-- The entries of a table under construction, in the order of their first mention. -/
abbrev Entries := List (String × Item)

mutual

/-- The value an item has come to. -/
def Item.toValue : Item → Value
  | .value v => v
  | .table _ entries => .table (Item.toValues entries)

/-- The values of entries. -/
def Item.toValues : List (String × Item) → List (String × Value)
  | [] => []
  | (k, item) :: entries => (k, item.toValue) :: Item.toValues entries

end

namespace Entries

/-- The values the entries have come to. -/
def values (es : Entries) : List (String × Value) := Item.toValues es

/-- What stands under a key. -/
def get? (es : Entries) (k : String) : Option Item := (es.find? (·.1 = k)).map (·.2)

/-- Puts an item under a key, in place of the one that stands there. -/
def put (es : Entries) (k : String) (item : Item) : Entries :=
  if (es.get? k).isSome then es.map fun e => if e.1 = k then (k, item) else e
  else es ++ [(k, item)]

/-- Gives the key at the end of a path a value, the path going through tables made by
dotted keys. -/
def assign? (v : Value) : List String → Entries → Option Entries
  | [], _ => none
  | [k], es => if (es.get? k).isSome then none else some (es.put k (.value v))
  | k :: ks, es =>
    match es.get? k with
    | none => (assign? v ks []).map fun inner => es.put k (.table .dotted inner)
    | some (.table .dotted inner) =>
      (assign? v ks inner).map fun inner => es.put k (.table .dotted inner)
    | some _ => none

/-- Makes the table a header names, or takes over one that was only passed through. -/
def addHeader? : List String → Entries → Option Entries
  | [], _ => none
  | [k], es =>
    match es.get? k with
    | none => some (es.put k (.table .header []))
    | some (.table .passed inner) => some (es.put k (.table .header inner))
    | some _ => none
  | k :: ks, es =>
    match es.get? k with
    | none => (addHeader? ks []).map fun inner => es.put k (.table .passed inner)
    | some (.table origin inner) =>
      (addHeader? ks inner).map fun inner => es.put k (.table origin inner)
    | some (.value _) => none

/-- Gives a key of the table a header named a value. -/
def assignUnder? (path : List String) (v : Value) :
    (header : List String) → Entries → Option Entries
  | [], es => assign? v path es
  | k :: ks, es =>
    match es.get? k with
    | some (.table origin inner) =>
      (assignUnder? path v ks inner).map fun inner => es.put k (.table origin inner)
    | _ => none

/-- The table that assignments in braces make. -/
def ofPairs? (pairs : List (List String × Value)) : Option Entries :=
  pairs.foldlM (fun es (path, v) => assign? v path es) []

end Entries

end Schemata.Toml
