/-
The declaration tree of one schema text.

A tree keeps what its text declares, in the order of the text: options and empty
statements leave nothing behind.  Every declaration carries the line it begins on,
because later stages report errors there.  A field's type stays as it is written: a
bare name may be a message or an enum, and only the enum names of the whole tree can
tell which.
-/
import Schemata.Scalar

namespace Schemata

/-- A type as a field writes it. -/
inductive TypeRef where
  | scalar (s : Scalar)
  /-- A dotted name, one entry per segment. -/
  | named (segments : List String)
deriving DecidableEq, Repr, Inhabited

/-- The type as its text. -/
def TypeRef.text : TypeRef → String
  | scalar s => s.word
  | named segments => ".".intercalate segments

/-- A field of a message.  A field may be written without a label. -/
structure FieldDecl where
  label? : Option Label
  type : TypeRef
  name : String
  number : Int32
  line : Nat
deriving DecidableEq, Repr, Inhabited

/-- One value of an enum. -/
structure ValueDecl where
  name : String
  number : Int32
  line : Nat
deriving DecidableEq, Repr, Inhabited

/-- An enum and its values. -/
structure EnumDecl where
  name : String
  line : Nat
  values : List ValueDecl
deriving DecidableEq, Repr, Inhabited

/-- What a message's body holds. -/
inductive Member where
  | field (f : FieldDecl)
  | enum (e : EnumDecl)
  | message (name : String) (line : Nat) (body : List Member)
deriving Repr, Inhabited

/-- What an import makes of the file it names. -/
inductive ImportKind where
  | plain
  /-- The imported file's own imports are passed on. -/
  | reexport
  /-- The imported file may be missing at use. -/
  | weak
deriving DecidableEq, Repr, Inhabited

/-- An import and the path it writes. -/
structure ImportDecl where
  path : String
  kind : ImportKind
  line : Nat
deriving DecidableEq, Repr, Inhabited

/-- A declaration at the top level. -/
inductive Decl where
  | importing (i : ImportDecl)
  | package (name : String) (line : Nat)
  | enum (e : EnumDecl)
  | message (name : String) (line : Nat) (body : List Member)
deriving Repr, Inhabited

/-- The declaration tree of one text. -/
structure Schema where
  /-- The language edition the text names first. -/
  edition : String
  decls : List Decl
deriving Repr, Inhabited

/-- The import a declaration is, if it is one. -/
def Decl.import? : Decl → Option ImportDecl
  | importing i => some i
  | _ => none

namespace Schema

/-- The imports, in order. -/
def imports (s : Schema) : List ImportDecl :=
  s.decls.filterMap Decl.import?

end Schema

mutual

/-- The enum names declared in a member, in order. -/
def Member.enumNames : Member → List String
  | .field _ => []
  | .enum e => [e.name]
  | .message _ _ body => Member.enumNamesIn body

/-- The enum names declared in a body, at any depth, in order. -/
def Member.enumNamesIn : List Member → List String
  | [] => []
  | m :: ms => m.enumNames ++ Member.enumNamesIn ms

end

/-- The enum names declared in a top-level declaration, in order. -/
def Decl.enumNames : Decl → List String
  | importing _ => []
  | package _ _ => []
  | enum e => [e.name]
  | message _ _ body => Member.enumNamesIn body

/-- The names of all enums of the tree, at any depth and in order.  Names are not
scoped: two enums of one name count as one. -/
def Schema.enumNames (s : Schema) : List String :=
  s.decls.flatMap Decl.enumNames

/-- The distinct names of a list, in the order of their code points. -/
def distinctNames (names : List String) : List String :=
  (names.mergeSort fun a b => decide (a ≤ b)).eraseReps

end Schemata
