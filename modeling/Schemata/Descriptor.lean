/-
Descriptors: what a schema file declares, ready for use.

A descriptor keeps the order of its file; nothing is sorted and nothing is dropped
for having a name that occurs before.  Messages nest, so equality on them is decided
by recursion through their lists.
-/
import Schemata.Scalar

namespace Schemata.Descriptor

/-- What a field's type is: a scalar, or a message or an enum that is named beside. -/
inductive FieldKind where
  | scalar (s : Scalar)
  | message
  | enum
deriving DecidableEq, Repr, Inhabited

namespace FieldKind

/-- The tag of the kind. -/
def tag : FieldKind → String
  | scalar s => s.tag
  | message => "MESSAGE"
  | enum => "ENUM"

/-- Every kind, once. -/
def all : List FieldKind := Scalar.all.map scalar ++ [message, enum]

/-- The kind a tag names. -/
def ofTag? (t : String) : Option FieldKind :=
  all.find? (·.tag = t)

/-- The kind goes with the name of a type. -/
def isNamed : FieldKind → Bool
  | scalar _ => false
  | message => true
  | enum => true

@[simp] theorem ofTag?_tag (k : FieldKind) : ofTag? k.tag = some k := by
  cases k with
  | scalar s => cases s <;> decide
  | _ => decide

end FieldKind

/-- A field of a message. -/
structure Field where
  name : String
  number : Int32
  kind : FieldKind
  typeName? : Option String
  label : Label
deriving DecidableEq, Repr, Inhabited

/-- A value of an enum. -/
structure EnumValue where
  name : String
  number : Int32
deriving DecidableEq, Repr, Inhabited

/-- An enum and its values; a number may occur twice. -/
structure Enum where
  name : String
  values : List EnumValue
deriving DecidableEq, Repr, Inhabited

/-- A message: its fields and the definitions nested in it. -/
structure Message where
  name : String
  fields : List Field
  messages : List Message
  enums : List Enum
deriving Repr, Inhabited

/-- A message that holds nothing yet. -/
def Message.empty (name : String) : Message := ⟨name, [], [], []⟩

mutual

/-- Decides whether two messages are equal. -/
def Message.decEq : (a b : Message) → Decidable (a = b)
  | ⟨name₁, fields₁, messages₁, enums₁⟩, ⟨name₂, fields₂, messages₂, enums₂⟩ =>
    if h : name₁ = name₂ ∧ fields₁ = fields₂ ∧ enums₁ = enums₂ then
      match Message.decEqList messages₁ messages₂ with
      | .isTrue h' => .isTrue (by rw [h.1, h.2.1, h.2.2, h'])
      | .isFalse h' => .isFalse fun he => h' (by injection he)
    else .isFalse fun he => h (by injection he; exact ⟨‹_›, ‹_›, ‹_›⟩)

/-- Decides whether two lists of messages are equal. -/
def Message.decEqList : (as bs : List Message) → Decidable (as = bs)
  | [], [] => .isTrue rfl
  | [], _ :: _ => .isFalse (by simp)
  | _ :: _, [] => .isFalse (by simp)
  | a :: as, b :: bs =>
    match Message.decEq a b with
    | .isFalse h => .isFalse (by simp [h])
    | .isTrue h =>
      match Message.decEqList as bs with
      | .isFalse h' => .isFalse (by simp [h'])
      | .isTrue h' => .isTrue (by rw [h, h'])

end

instance : DecidableEq Message := Message.decEq

/-- A file: its imports, package, messages and enums. -/
structure File where
  name : String
  /-- The language edition the file names. -/
  edition : String
  package? : Option String
  /-- The paths imported, in order. -/
  dependencies : List String
  /-- Places in `dependencies` of the imports that are passed on. -/
  publicDependencies : List UInt64
  /-- Places in `dependencies` of the imports that may be missing. -/
  weakDependencies : List UInt64
  messages : List Message
  enums : List Enum
deriving DecidableEq, Repr, Inhabited

/-- A file that holds nothing yet. -/
def File.empty (name edition : String) : File :=
  ⟨name, edition, none, [], [], [], [], []⟩

end Schemata.Descriptor
