/-
The types and labels of fields that are written as reserved words.

Each of the fifteen scalars and each of the three labels has two spellings: the reserved
word it is written with in a schema, and the upper-case tag it carries in a descriptor.
Both are read back by searching the same list, so reading undoes writing for either
spelling.
-/

namespace Schemata

/-- One of the fifteen primitive field types. -/
inductive Scalar where
  | double | float
  | int64 | uint64 | int32
  | fixed64 | fixed32
  | bool | string | bytes
  | uint32 | sfixed32 | sfixed64 | sint32 | sint64
deriving DecidableEq, Repr, Inhabited

namespace Scalar

/-- Every scalar, once. -/
def all : List Scalar :=
  [double, float, int64, uint64, int32, fixed64, fixed32, bool, string, bytes,
   uint32, sfixed32, sfixed64, sint32, sint64]

/-- The reserved word a schema writes. -/
def word : Scalar → String
  | double => "double"
  | float => "float"
  | int64 => "int64"
  | uint64 => "uint64"
  | int32 => "int32"
  | fixed64 => "fixed64"
  | fixed32 => "fixed32"
  | bool => "bool"
  | string => "string"
  | bytes => "bytes"
  | uint32 => "uint32"
  | sfixed32 => "sfixed32"
  | sfixed64 => "sfixed64"
  | sint32 => "sint32"
  | sint64 => "sint64"

/-- The tag a descriptor carries. -/
def tag : Scalar → String
  | double => "DOUBLE"
  | float => "FLOAT"
  | int64 => "INT64"
  | uint64 => "UINT64"
  | int32 => "INT32"
  | fixed64 => "FIXED64"
  | fixed32 => "FIXED32"
  | bool => "BOOL"
  | string => "STRING"
  | bytes => "BYTES"
  | uint32 => "UINT32"
  | sfixed32 => "SFIXED32"
  | sfixed64 => "SFIXED64"
  | sint32 => "SINT32"
  | sint64 => "SINT64"

/-- The scalar a reserved word names. -/
def ofWord? (w : String) : Option Scalar :=
  all.find? (·.word = w)

/-- The scalar a tag names. -/
def ofTag? (t : String) : Option Scalar :=
  all.find? (·.tag = t)

@[simp] theorem ofWord?_word (s : Scalar) : ofWord? s.word = some s := by
  cases s <;> decide

@[simp] theorem ofTag?_tag (s : Scalar) : ofTag? s.tag = some s := by
  cases s <;> decide

theorem word_of_ofWord? {w : String} {s : Scalar} (h : ofWord? w = some s) : s.word = w := by
  simpa using List.find?_some h

end Scalar

/-- How often a field may occur. -/
inductive Label where
  | optional | required | repeated
deriving DecidableEq, Repr, Inhabited

namespace Label

/-- Every label, once. -/
def all : List Label := [optional, required, repeated]

/-- The reserved word a schema writes. -/
def word : Label → String
  | optional => "optional"
  | required => "required"
  | repeated => "repeated"

/-- The tag a descriptor carries. -/
def tag : Label → String
  | optional => "OPTIONAL"
  | required => "REQUIRED"
  | repeated => "REPEATED"

/-- The label a reserved word names. -/
def ofWord? (w : String) : Option Label :=
  all.find? (·.word = w)

/-- The label a tag names. -/
def ofTag? (t : String) : Option Label :=
  all.find? (·.tag = t)

@[simp] theorem ofWord?_word (l : Label) : ofWord? l.word = some l := by
  cases l <;> decide

@[simp] theorem ofTag?_tag (l : Label) : ofTag? l.tag = some l := by
  cases l <;> decide

end Label

end Schemata
