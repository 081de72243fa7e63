/-
Finding a definition by its path of names.

A path starts at a file and names, step by step, a message, an enum, a field or an
enum value inside what was found so far.  Of several of one name the first is taken.
-/
import Schemata.Descriptor

namespace Schemata.Descriptor

/-- One step of a path. -/
inductive Selector where
  | message (name : String)
  | enum (name : String)
  | field (name : String)
  | value (name : String)
deriving DecidableEq, Repr

/-- What a path can lead to. -/
inductive Definition where
  | file (f : File)
  | message (m : Message)
  | enum (e : Enum)
  | field (f : Field)
  | value (v : EnumValue)
deriving Repr

/-- The first message of this name in the file. -/
def File.message? (f : File) (name : String) : Option Message :=
  f.messages.find? (·.name = name)

/-- The first enum of this name in the file. -/
def File.enum? (f : File) (name : String) : Option Enum :=
  f.enums.find? (·.name = name)

/-- The first field of this name. -/
def Message.field? (m : Message) (name : String) : Option Field :=
  m.fields.find? (·.name = name)

/-- The first message of this name nested in the message. -/
def Message.message? (m : Message) (name : String) : Option Message :=
  m.messages.find? (·.name = name)

/-- The first enum of this name nested in the message. -/
def Message.enum? (m : Message) (name : String) : Option Enum :=
  m.enums.find? (·.name = name)

/-- The first value of this name. -/
def Enum.value? (e : Enum) (name : String) : Option EnumValue :=
  e.values.find? (·.name = name)

/-- What a step leads to, if there is such a thing there. -/
def Definition.select? : Definition → Selector → Option Definition
  | file f, .message name => (f.message? name).map message
  | file f, .enum name => (f.enum? name).map enum
  | message m, .message name => (m.message? name).map message
  | message m, .enum name => (m.enum? name).map enum
  | message m, .field name => (m.field? name).map field
  | enum e, .value name => (e.value? name).map value
  | _, _ => none

/-- What a path leads to from the file. -/
def File.find? (f : File) (path : List Selector) : Option Definition :=
  path.foldlM Definition.select? (.file f)

end Schemata.Descriptor
