/-
Descriptors from JSON.

Decoding is generous in form and strict in content.  An object may hold keys that mean
nothing here, its known keys in any order, and may leave out those with a default; the
same structure may also be an array of its values in the order of declaration.  A
known key given twice, a null where a value is needed, or a number that does not fit
is refused.  What is decoded may nest a hundred and twenty-seven containers deep: each
object and array entered costs one level of the depth left, on which the decoders
recurse.  Values of unknown keys are not entered and cost nothing.

A set that decodes is then checked: file names must be distinct, and a field carries
the name of a type exactly if its kind goes with one.  The first offence in the order
of the text is reported, a file's name before its fields.
-/
import Schemata.Descriptor.Set
import Schemata.Json.Reader

namespace Schemata

namespace Descriptor

/-- How many containers may be entered on the way to any value decoded. -/
def maxDepth : Nat := 127

/-! ### Structures -/

/-- The value of the only entry with this key; nothing if there is none. -/
def valueAt? (entries : List (String × Json)) (key : String) : Option (Option Json) :=
  match entries.filter (·.1 = key) with
  | [] => some none
  | [(_, value)] => some (some value)
  | _ => none

/-- The entries of an object whose keys are all strings. -/
def readable? (entries : List (Option String × Json)) : Option (List (String × Json)) :=
  entries.mapM fun (key, value) => key.map (·, value)

/-- The values of a structure's keys, in the order of the keys, each perhaps absent.
A structure is an object, or an array of its first values. -/
def structure? (keys : List String) : Json → Option (List (Option Json))
  | .object entries => do
    let entries ← readable? entries
    keys.mapM (valueAt? entries)
  | .array values =>
    if values.length ≤ keys.length then
      some (values.map some ++ List.replicate (keys.length - values.length) none)
    else none
  | _ => none

/-! ### Values -/

/-- A string. -/
def string? : Json → Option String
  | .string s? => s?
  | _ => none

/-- A string, or nothing where it is null or absent. -/
def optionalString? : Option Json → Option (Option String)
  | none => some none
  | some .null => some none
  | some j => (string? j).map some

/-- An integer of thirty-two bits, signed. -/
def number? : Json → Option Int32
  | .integer n => if -0x80000000 ≤ n ∧ n < 0x80000000 then some (Int32.ofInt n) else none
  | _ => none

/-- A place among the imports. -/
def place? : Json → Option UInt64
  | .integer n => if 0 ≤ n ∧ n < 0x10000000000000000 then some (UInt64.ofNat n.toNat) else none
  | _ => none

/-- A tag: a string, or an object that maps it to null. -/
def tag? (depth : Nat) : Json → Option String
  | .string s? => s?
  | .object [(key, .null)] => if 0 < depth then key else none
  | _ => none

/-- The elements of an array, each decoded one level deeper. -/
def list? {α : Type} (element? : Nat → Json → Option α) : Nat → Json → Option (List α)
  | depth + 1, .array values => values.mapM (element? depth)
  | _, _ => none

/-- A list, empty where it is absent. -/
def listOrEmpty? {α : Type} (element? : Nat → Json → Option α) (depth : Nat) :
    Option Json → Option (List α)
  | none => some []
  | some j => list? element? depth j

/-! ### Descriptors -/

/-- A field, with so much depth left. -/
def field? : Nat → Json → Option Field
  | 0, _ => none
  | depth + 1, j => do
    let [name, number, kind, typeName, label] ←
      structure? ["name", "number", "kind", "type_name", "label"] j | none
    return {
      name := ← string? (← name)
      number := ← number? (← number)
      kind := ← FieldKind.ofTag? (← tag? depth (← kind))
      typeName? := ← optionalString? typeName
      label := ← match label with
        | none => some .optional
        | some label => do Label.ofTag? (← tag? depth label) }

/-- A value of an enum, with so much depth left. -/
def enumValue? : Nat → Json → Option EnumValue
  | 0, _ => none
  | _ + 1, j => do
    let [name, number] ← structure? ["name", "number"] j | none
    return { name := ← string? (← name), number := ← number? (← number) }

/-- An enum, with so much depth left. -/
def enum? : Nat → Json → Option Enum
  | 0, _ => none
  | depth + 1, j => do
    let [name, values] ← structure? ["name", "values"] j | none
    return { name := ← string? (← name), values := ← listOrEmpty? enumValue? depth values }

mutual

/-- A message, with so much depth left. -/
def message? : Nat → Json → Option Message
  | 0, _ => none
  | depth + 1, j => do
    let [name, fields, messages, enums] ←
      structure? ["name", "fields", "nested_messages", "nested_enums"] j | none
    return {
      name := ← string? (← name)
      fields := ← listOrEmpty? field? depth fields
      messages := ← messages? depth messages
      enums := ← listOrEmpty? enum? depth enums }

/-- The messages nested in a message, none where they are absent. -/
def messages? : Nat → Option Json → Option (List Message)
  | _, none => some []
  | depth + 1, some (.array values) => values.mapM (message? depth)
  | _, some _ => none

end

/-- The keys of a file, in the order of declaration. -/
def fileKeys : List String :=
  ["name", "syntax", "package", "dependencies", "public_dependencies", "weak_dependencies",
    "messages", "enums"]

/-- A file, with so much depth left. -/
def file? : Nat → Json → Option File
  | 0, _ => none
  | depth + 1, j => do
    let [name, edition, package, dependencies, publicDependencies, weakDependencies, messages,
      enums] ← structure? fileKeys j | none
    return {
      name := ← string? (← name)
      edition := ← string? (← edition)
      package? := ← optionalString? package
      dependencies := ← listOrEmpty? (fun _ => string?) depth dependencies
      publicDependencies := ← listOrEmpty? (fun _ => place?) depth publicDependencies
      weakDependencies := ← listOrEmpty? (fun _ => place?) depth weakDependencies
      messages := ← listOrEmpty? message? depth messages
      enums := ← listOrEmpty? enum? depth enums }

/-- A file, alone at the top of its text. -/
def File.ofJson? (j : Json) : Option File := file? maxDepth j

/-! ### Offences -/

/-- How a field's type name disagrees with its kind. -/
inductive TypeNameFault where
  | missing
  | unexpected
deriving DecidableEq, Repr

/-- The words for it. -/
def TypeNameFault.message : TypeNameFault → String
  | missing => "MESSAGE and ENUM fields need a type_name"
  | unexpected => "scalar fields cannot carry a type_name"

/-- The field carries the name of a type; an empty one counts as none. -/
def Field.hasTypeName (f : Field) : Bool :=
  f.typeName?.any (· ≠ "")

/-- How the field's type name disagrees with its kind, if it does. -/
def Field.typeNameFault? (f : Field) : Option TypeNameFault :=
  match f.kind.isNamed, f.hasTypeName with
  | true, false => some .missing
  | false, true => some .unexpected
  | _, _ => none

end Descriptor

/-- Why a text is no descriptor set. -/
inductive DecodeError where
  /-- It is no JSON, or JSON of another form. -/
  | malformed
  /-- Two files have this name. -/
  | duplicateFile (name : String)
  /-- A field's type name disagrees with its kind.  The message is named by the names
  of the messages around it and its own, with dots between them. -/
  | invalidField (file message field : String) (fault : Descriptor.TypeNameFault)
deriving DecidableEq, Repr

/-- The text of the error. -/
def DecodeError.message : DecodeError → String
  | malformed => "invalid descriptor set JSON"
  | duplicateFile name => "duplicate file descriptor '" ++ name ++ "'"
  | invalidField file message field fault =>
    "field '" ++ field ++ "' of message '" ++ message ++ "' in '" ++ file ++ "': "
      ++ fault.message

namespace Descriptor

/-- The first offence among the fields of the message called `path`. -/
def fieldOffence? (file path : String) (fields : List Field) : Option DecodeError :=
  fields.findSome? fun f => f.typeNameFault?.map (.invalidField file path f.name)

mutual

/-- The first offence in a message called `path`, its own fields before those of the
messages nested in it. -/
def Message.offence? (file path : String) : Message → Option DecodeError
  | ⟨_, fields, messages, _⟩ =>
    (fieldOffence? file path fields).or (Message.offenceIn? file (path ++ ".") messages)

/-- The first offence in messages whose names are preceded by `scope`. -/
def Message.offenceIn? (file scope : String) : List Message → Option DecodeError
  | [] => none
  | m :: ms =>
    (m.offence? file (scope ++ m.name)).or (Message.offenceIn? file scope ms)

end

/-- The first offence among files that come after files of the names `seen`. -/
def filesOffence? (seen : List String) : List File → Option DecodeError
  | [] => none
  | f :: fs =>
    if f.name ∈ seen then some (.duplicateFile f.name)
    else (Message.offenceIn? f.name "" f.messages).or (filesOffence? (seen ++ [f.name]) fs)

end Descriptor

namespace DescriptorSet

/-- The set a JSON value stands for, unchecked. -/
def ofJson? (j : Json) : Option DescriptorSet := do
  let [files] ← Descriptor.structure? ["files"] j | none
  return ⟨← Descriptor.list? Descriptor.file? (Descriptor.maxDepth - 1) (← files)⟩

/-- The first offence of the set, if it has one. -/
def offence? (s : DescriptorSet) : Option DecodeError := Descriptor.filesOffence? [] s.files

/-- The set a JSON text stands for. -/
def ofJsonText (text : String) : Except DecodeError DescriptorSet :=
  match (Json.read? text).bind ofJson? with
  | none => .error .malformed
  | some s =>
    match s.offence? with
    | some offence => .error offence
    | none => .ok s

end DescriptorSet

end Schemata
