/-
From a declaration tree to the descriptor of its file.

The tree is walked once, in the order of the text.  A draft holds the messages that are
open, on a stack, and the file around them; each member adds to the innermost message or
to the file.  In nested mode a definition goes into the message it stands in; in flatten
mode it goes to the file, an enum when it is met and a message when it closes, so a
message comes after those it contains.

A named type counts as an enum when its last segment is among the enum names given,
and as a message otherwise: names are not scoped, and a type of another file is
taken for a message.
-/
import Schemata.Schema
import Schemata.Descriptor
import Schemata.Error.Encode

namespace Schemata

/-- Where a definition inside a message goes. -/
inductive Nesting where
  /-- Into the message it stands in. -/
  | nested
  /-- To the file. -/
  | flatten
deriving DecidableEq, Repr, Inhabited

namespace Lowering

open Descriptor

/-- What lowering a file depends on besides its tree. -/
structure Context where
  file : String
  enumNames : List String
  nesting : Nesting
deriving Repr, Inhabited

/-- The descriptor of an enum. -/
def enum (e : EnumDecl) : Enum :=
  ⟨e.name, e.values.map fun v => ⟨v.name, v.number⟩⟩

/-- The descriptor of a field.  A type without a last segment names nothing. -/
def field (ctx : Context) (f : FieldDecl) : Except Error Field :=
  let label := f.label?.getD .optional
  match f.type with
  | .scalar s => .ok ⟨f.name, f.number, .scalar s, none, label⟩
  | .named segments =>
    let last := segments.getLast?.getD ""
    if last = "" then .error (.unresolvedType ctx.file f.line f.type.text)
    else
      let kind := if last ∈ ctx.enumNames then .enum else .message
      .ok ⟨f.name, f.number, kind, some f.type.text, label⟩

/-- A file that is being built and the messages in it whose bodies have not ended. -/
structure Draft where
  /-- The open messages, the innermost first. -/
  opened : List Message
  file : File
deriving Repr, Inhabited

namespace Draft

/-- Opens a message. -/
def begin (d : Draft) (name : String) : Draft :=
  { d with opened := .empty name :: d.opened }

/-- Adds a field to the innermost open message. -/
def addField (d : Draft) (f : Field) : Draft :=
  match d.opened with
  | [] => d
  | m :: ms => { d with opened := { m with fields := m.fields ++ [f] } :: ms }

/-- Adds an enum where the mode puts it: to the innermost open message or to the file, and
to the file if no message is open. -/
def addEnum (nesting : Nesting) (d : Draft) (e : Enum) : Draft :=
  match nesting, d.opened with
  | .nested, m :: ms => { d with opened := { m with enums := m.enums ++ [e] } :: ms }
  | _, _ => { d with file := { d.file with enums := d.file.enums ++ [e] } }

/-- Adds a message that is complete where the mode puts it, as with an enum. -/
def addMessage (nesting : Nesting) (d : Draft) (m : Message) : Draft :=
  match nesting, d.opened with
  | .nested, outer :: ms =>
    { d with opened := { outer with messages := outer.messages ++ [m] } :: ms }
  | _, _ => { d with file := { d.file with messages := d.file.messages ++ [m] } }

/-- Ends the innermost open message and adds it. -/
def close (nesting : Nesting) (d : Draft) : Draft :=
  match d.opened with
  | [] => d
  | m :: ms => addMessage nesting { d with opened := ms } m

end Draft

mutual

/-- Adds one member to the draft. -/
def member (ctx : Context) : Member → Draft → Except Error Draft
  | .field f, d => do return d.addField (← field ctx f)
  | .enum e, d => .ok (d.addEnum ctx.nesting (enum e))
  | .message name _ body, d => do
    return (← members ctx body (d.begin name)).close ctx.nesting

/-- Adds the members of the innermost open message to the draft, in order. -/
def members (ctx : Context) : List Member → Draft → Except Error Draft
  | [], d => .ok d
  | m :: ms, d => do members ctx ms (← member ctx m d)

end

/-- A draft and the line of its file's package declaration, if it had one yet. -/
structure Progress extends Draft where
  packageLine? : Option Nat
deriving Repr, Inhabited

/-- Adds an import. -/
def addImport (file : File) (i : ImportDecl) : File :=
  let place := UInt64.ofNat file.dependencies.length
  let file := { file with dependencies := file.dependencies ++ [i.path] }
  match i.kind with
  | .plain => file
  | .reexport => { file with publicDependencies := file.publicDependencies ++ [place] }
  | .weak => { file with weakDependencies := file.weakDependencies ++ [place] }

/-- The complaint about a second package declaration. -/
def duplicatePackage (first : Nat) : String :=
  "duplicate package declaration: first declared at line " ++ toString first

/-- Adds one top-level declaration. -/
def decl (ctx : Context) (p : Progress) : Decl → Except Error Progress
  | .importing i => .ok { p with file := addImport p.file i }
  | .package name line =>
    match p.packageLine? with
    | some first => .error (.grammar ctx.file line (duplicatePackage first))
    | none =>
      .ok { p with file := { p.file with package? := some name }, packageLine? := some line }
  | .enum e => do return { p with toDraft := ← member ctx (.enum e) p.toDraft }
  | .message name line body => do
    return { p with toDraft := ← member ctx (.message name line body) p.toDraft }

end Lowering

/-- The descriptor of the file `name` with the tree `s`, its named types classified by
`enumNames`. -/
def Schema.lower (s : Schema) (name : String) (enumNames : List String) (nesting : Nesting) :
    Except Error Descriptor.File := do
  let start : Lowering.Progress := ⟨⟨[], .empty name s.edition⟩, none⟩
  return (← s.decls.foldlM (Lowering.decl ⟨name, enumNames, nesting⟩) start).file

end Schemata
