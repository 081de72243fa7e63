/-
Descriptors as JSON.

Every object has its keys in alphabetical order.  A key is left out only where its
value says nothing: no package, no type name, no import that is passed on, none that
may be missing.  A type name that is there is written even if it is empty.
-/
import Schemata.Descriptor.Set
import Schemata.Json.Printer

namespace Schemata

namespace Descriptor

/-- An entry that is written only if there is a value for it. -/
def optionalEntry (key : String) (value? : Option Json) : List (String × Json) :=
  value?.toList.map fun value => (key, value)

/-- An entry for a list that is written only if the list has elements. -/
def nonemptyEntry (key : String) (elements : List Json) : List (String × Json) :=
  match elements with
  | [] => []
  | _ :: _ => [(key, .array elements)]

/-- A place among the imports. -/
def placeToJson (n : UInt64) : Json := .integer n.toNat

namespace Field

/-- The field as JSON. -/
def toJson (f : Field) : Json :=
  .ofEntries <|
    [("kind", .ofString f.kind.tag),
      ("label", .ofString f.label.tag),
      ("name", .ofString f.name),
      ("number", .integer f.number.toInt)]
    ++ optionalEntry "type_name" (f.typeName?.map .ofString)

end Field

namespace EnumValue

/-- The value as JSON. -/
def toJson (v : EnumValue) : Json :=
  .ofEntries [("name", .ofString v.name), ("number", .integer v.number.toInt)]

end EnumValue

namespace Enum

/-- The enum as JSON. -/
def toJson (e : Enum) : Json :=
  .ofEntries [("name", .ofString e.name), ("values", .array (e.values.map EnumValue.toJson))]

end Enum

namespace Message

mutual

/-- The message as JSON. -/
def toJson : Message → Json
  | ⟨name, fields, messages, enums⟩ =>
    .ofEntries
      [("fields", .array (fields.map Field.toJson)),
        ("name", .ofString name),
        ("nested_enums", .array (enums.map Enum.toJson)),
        ("nested_messages", .array (toJsonList messages))]

/-- The messages as JSON, in order. -/
def toJsonList : List Message → List Json
  | [] => []
  | m :: ms => m.toJson :: toJsonList ms

end

end Message

namespace File

/-- The file as JSON. -/
def toJson (f : File) : Json :=
  .ofEntries <|
    [("dependencies", .array (f.dependencies.map .ofString)),
      ("enums", .array (f.enums.map Enum.toJson)),
      ("messages", .array (Message.toJsonList f.messages)),
      ("name", .ofString f.name)]
    ++ optionalEntry "package" (f.package?.map .ofString)
    ++ nonemptyEntry "public_dependencies" (f.publicDependencies.map placeToJson)
    ++ [("syntax", .ofString f.edition)]
    ++ nonemptyEntry "weak_dependencies" (f.weakDependencies.map placeToJson)

end File

end Descriptor

/-- The set as JSON. -/
def DescriptorSet.toJson (s : DescriptorSet) : Json :=
  .ofEntries [("files", .array (s.files.map Descriptor.File.toJson))]

/-- The set as JSON text. -/
def DescriptorSet.toJsonText (s : DescriptorSet) : String := s.toJson.pretty

end Schemata
