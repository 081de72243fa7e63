/-
Which fields and enums a descriptor has.

Whatever becomes of the messages, nested or put side by side, every field and every enum of the
tree is in the descriptor once.  A field stays in its message and an enum keeps its values, so
only the order in which they are met may be another one.
-/
import Schemata.Proofs.Lowering.Flattened

namespace Schemata

open Fallible Descriptor

/-! ### Fields at any depth -/

namespace Descriptor

mutual

/-- The fields of a message and of the messages nested in it. -/
def Message.allFields : Message → List Field
  | ⟨_, fields, messages, _⟩ => fields ++ Message.allFieldsIn messages

/-- The same of the messages of a list. -/
def Message.allFieldsIn : List Message → List Field
  | [] => []
  | m :: ms => m.allFields ++ Message.allFieldsIn ms

end

/-- The fields of the messages of a file, at any depth. -/
def File.allFields (f : File) : List Field := Message.allFieldsIn f.messages

theorem Message.allFieldsIn_append (ms ns : List Message) :
    allFieldsIn (ms ++ ns) = allFieldsIn ms ++ allFieldsIn ns := by
  induction ms with
  | nil => rw [List.nil_append, allFieldsIn, List.nil_append]
  | cons m ms ih => rw [List.cons_append, allFieldsIn, ih, allFieldsIn, List.append_assoc]

end Descriptor

namespace Lowering

/-- The fields in contents, those of the messages included. -/
def Contents.allFields (c : Contents) : List Field := c.fields ++ Message.allFieldsIn c.messages

theorem Contents.allFields_append (a b : Contents) :
    (a ++ b).allFields.Perm (a.allFields ++ b.allFields) := by
  have hswap : (b.fields ++ Message.allFieldsIn a.messages).Perm
      (Message.allFieldsIn a.messages ++ b.fields) := List.perm_append_comm
  simpa [allFields, Message.allFieldsIn_append] using
    (hswap.append_right (Message.allFieldsIn b.messages)).append_left a.fields

/-- A message has the fields of its contents, or leaves some of them in messages before it. -/
theorem Contents.allFields_enclosed (c : Contents) (nesting : Nesting) (name : String) :
    (c.enclosed nesting name).allFields.Perm c.allFields := by
  cases nesting with
  | nested => simp [enclosed, allFields, Message.allFieldsIn, Message.allFields]
  | flatten =>
      simpa [enclosed, allFields, Message.allFieldsIn_append, Message.allFieldsIn,
        Message.allFields] using List.perm_append_comm

mutual

/-- A member adds every field in it once. -/
theorem perm_allFields_contents {nesting : Nesting} (enumNames : List String) (m : Member) :
    (contents nesting enumNames m).allFields.Perm (m.fields.map (·.lowered enumNames)) := by
  cases m with
  | field f => simp [Member.fields, contents, Contents.allFields, Message.allFieldsIn]
  | enum e => simp [Member.fields, contents, Contents.allFields, Message.allFieldsIn]
  | message name line body =>
      rw [Member.fields, contents]
      exact (Contents.allFields_enclosed _ nesting name).trans
        (perm_allFields_contentsIn enumNames body)

theorem perm_allFields_contentsIn {nesting : Nesting} (enumNames : List String)
    (ms : List Member) :
    (contentsIn nesting enumNames ms).allFields.Perm
      ((Member.fieldsIn ms).map (·.lowered enumNames)) := by
  cases ms with
  | nil =>
      simp [Member.fieldsIn, contentsIn, Contents.empty, Contents.allFields, Message.allFieldsIn]
  | cons m ms =>
      rw [Member.fieldsIn, contentsIn, List.map_append]
      exact (Contents.allFields_append _ _).trans ((perm_allFields_contents enumNames m).append
        (perm_allFields_contentsIn enumNames ms))

end

/-- No field stands outside of the messages of a file. -/
theorem fields_contentsIn_decls (nesting : Nesting) (enumNames : List String) (ds : List Decl) :
    (contentsIn nesting enumNames (ds.filterMap Decl.member?)).fields = [] := by
  induction ds with
  | nil => rw [List.filterMap_nil, contentsIn, Contents.empty]
  | cons d ds ih =>
      cases hmember : d.member? with
      | none => rwa [List.filterMap_cons_none hmember]
      | some m =>
          rw [List.filterMap_cons_some hmember, contentsIn, Contents.fields_append, ih,
            List.append_nil]
          cases d with
          | message name line body =>
              obtain rfl := Option.some.inj hmember
              rw [contents]
              cases nesting <;> rfl
          | enum e =>
              obtain rfl := Option.some.inj hmember
              rw [contents]
          | _ => cases hmember

end Lowering

/-- **The fields and enums of a descriptor are those of the tree, each as often as there.** -/
theorem Schema.population_lower {s : Schema} {name : String} {enumNames : List String}
    {nesting : Nesting} {file : File} (h : s.lower name enumNames nesting = .ok file) :
    file.allFields.Perm (s.fields.map (·.lowered enumNames)) ∧
      file.allEnums.Perm (s.enums.map EnumDecl.lowered) := by
  obtain ⟨hmessages, henums⟩ := contents_of_lower h
  have hfields : (Lowering.contentsIn nesting enumNames s.members).allFields.Perm
      (s.fields.map (·.lowered enumNames)) :=
    Lowering.perm_allFields_contentsIn enumNames s.members
  constructor
  · rwa [Lowering.Contents.allFields, Schema.members, Lowering.fields_contentsIn_decls,
      List.nil_append, ← Schema.members, ← hmessages] at hfields
  · rw [File.allEnums, hmessages, henums]
    exact (Lowering.perm_allEnums_contentsIn enumNames s.members).symm

end Schemata
