/-
What lowering answers in nested mode.

A message holds its own fields, messages and enums, each list in the order of the text, and
so does the file at the top; nothing else of the tree is needed to say so, neither a stack
nor a draft.  Lowering fails exactly if a second package is declared or a field's type names
nothing, and the first such place in the order of the text decides the error.
-/
import Schemata.Proofs.Lowering.Structure

namespace Schemata

open Fallible Descriptor

/-! ### Messages -/

namespace Member

/-- The field a member is, if it is one. -/
def field? : Member → Option FieldDecl
  | field f => some f
  | _ => none

/-- The enum a member is, if it is one. -/
def enum? : Member → Option EnumDecl
  | enum e => some e
  | _ => none

mutual

/-- The descriptor of the message a member is, if it is one. -/
def message? (enumNames : List String) : Member → Option Message
  | message name _ body => some {
      name
      fields := (body.filterMap field?).map (FieldDecl.lowered enumNames)
      messages := messagesIn enumNames body
      enums := (body.filterMap enum?).map EnumDecl.lowered }
  | _ => none

/-- The descriptors of the messages among the members of a body. -/
def messagesIn (enumNames : List String) : List Member → List Message
  | [] => []
  | m :: ms => (message? enumNames m).toList ++ messagesIn enumNames ms

end

theorem messagesIn_eq (enumNames : List String) (ms : List Member) :
    messagesIn enumNames ms = ms.filterMap (message? enumNames) := by
  induction ms with
  | nil => rw [messagesIn, List.filterMap_nil]
  | cons m ms ih => cases h : message? enumNames m <;> simp [messagesIn, h, ih]

end Member

namespace Lowering

mutual

theorem contents_nested (enumNames : List String) (m : Member) :
    contents .nested enumNames m =
      ⟨m.field?.toList.map (·.lowered enumNames), (m.message? enumNames).toList,
        m.enum?.toList.map EnumDecl.lowered⟩ := by
  cases m with
  | field f => simp [contents, Member.field?, Member.message?, Member.enum?]
  | enum e => simp [contents, Member.field?, Member.message?, Member.enum?]
  | message name line body =>
      rw [contents, contentsIn_nested enumNames body, Member.message?]
      rfl

/-- What the members of a body add to the message it is the body of. -/
theorem contentsIn_nested (enumNames : List String) (ms : List Member) :
    contentsIn .nested enumNames ms =
      ⟨(ms.filterMap Member.field?).map (·.lowered enumNames), Member.messagesIn enumNames ms,
        (ms.filterMap Member.enum?).map EnumDecl.lowered⟩ := by
  cases ms with
  | nil =>
      rw [contentsIn, Member.messagesIn]
      rfl
  | cons m ms =>
      rw [contentsIn, contents_nested enumNames m, contentsIn_nested enumNames ms,
        Member.messagesIn]
      ext1
      · cases h : m.field? <;> simp [h]
      · rfl
      · cases h : m.enum? <;> simp [h]

end

end Lowering

/-! ### Files -/

namespace Schema

/-- The places, among all imports, of those of one kind. -/
def importPlaces (s : Schema) (kind : ImportKind) : List UInt64 :=
  (s.imports.zipIdx.filter (·.1.kind = kind)).map (.ofNat ·.2)

/-- Lowering in nested mode is recursion over the tree: the first fault in the order of the
text, or the descriptor that lists, in that order, the imports, the package, and the
messages and enums, each message with its own fields, messages and enums.  There is no
fault exactly if no second package is declared and the type of every field, however deep,
names something. -/
theorem lower_nested_eq (s : Schema) (name : String) (enumNames : List String) :
    s.lower name enumNames .nested =
      (match s.faults name with
      | e :: _ => .error e
      | [] => .ok {
          name
          edition := s.edition
          package? := s.packages.getLast?
          dependencies := s.imports.map (·.path)
          publicDependencies := s.importPlaces .reexport
          weakDependencies := s.importPlaces .weak
          messages := s.members.filterMap (Member.message? enumNames)
          enums := (s.members.filterMap Member.enum?).map EnumDecl.lowered }) ∧
    (s.faults name = [] ↔
      s.packages.length ≤ 1 ∧ ∀ f ∈ s.fields, ¬ f.type.NamesNothing) := by
  constructor
  · rw [lower_eq, Lowering.grown, Lowering.contentsIn_nested, Member.messagesIn_eq]
    cases s.faults name with
    | nil => simp [File.empty, packages, imports, importPlaces, members, Lowering.placesFrom]
    | cons e es => rfl
  · exact s.faults_eq_nil name

end Schema

end Schemata
