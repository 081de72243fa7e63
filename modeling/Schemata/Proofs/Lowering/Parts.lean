/-
Where the parts of a descriptor come from.

Lowering makes up nothing: every field, enum and message name in a descriptor, at whatever
depth and in whichever mode, is that of a field, an enum or a message of the tree.  So what
holds of the parts of the tree holds everywhere in the descriptor.
-/
import Schemata.Proofs.Lowering.Structure

namespace Schemata

open Fallible Descriptor

mutual

/-- The names of the messages a member is and holds, at any depth and in order. -/
def Member.messageNames : Member → List String
  | .field _ => []
  | .enum _ => []
  | .message name _ body => name :: Member.messageNamesIn body

/-- The names of the messages of a body, at any depth and in order. -/
def Member.messageNamesIn : List Member → List String
  | [] => []
  | m :: ms => m.messageNames ++ Member.messageNamesIn ms

end

mutual

/-- The enums a member is and holds, at any depth and in order. -/
def Member.enums : Member → List EnumDecl
  | .field _ => []
  | .enum e => [e]
  | .message _ _ body => Member.enumsIn body

/-- The enums of a body, at any depth and in order. -/
def Member.enumsIn : List Member → List EnumDecl
  | [] => []
  | m :: ms => m.enums ++ Member.enumsIn ms

end

theorem Member.messageNamesIn_append (ms ns : List Member) :
    messageNamesIn (ms ++ ns) = messageNamesIn ms ++ messageNamesIn ns := by
  induction ms with
  | nil => rw [List.nil_append, messageNamesIn, List.nil_append]
  | cons m ms ih =>
      rw [List.cons_append, messageNamesIn, ih, messageNamesIn, List.append_assoc]

theorem Member.enumsIn_append (ms ns : List Member) :
    enumsIn (ms ++ ns) = enumsIn ms ++ enumsIn ns := by
  induction ms with
  | nil => rw [List.nil_append, enumsIn, List.nil_append]
  | cons m ms ih => rw [List.cons_append, enumsIn, ih, enumsIn, List.append_assoc]

/-- It holds of the message and of every message within it. -/
inductive Descriptor.Message.Everywhere (P : Message → Prop) : Message → Prop
  | mk {m : Message} (own : P m) (nested : ∀ n ∈ m.messages, Everywhere P n) : Everywhere P m

/-- What holds of names, fields and enums holds of those of the message itself. -/
structure Descriptor.Message.Holds (N : String → Prop) (F : Field → Prop) (E : Enum → Prop)
    (m : Message) : Prop where
  name : N m.name
  fields : ∀ f ∈ m.fields, F f
  enums : ∀ e ∈ m.enums, E e

namespace Lowering

section

variable {N : String → Prop} {F : Field → Prop} {E : Enum → Prop}

/-- The same of all contents. -/
structure Contents.Holds (N : String → Prop) (F : Field → Prop) (E : Enum → Prop)
    (c : Contents) : Prop where
  fields : ∀ f ∈ c.fields, F f
  messages : ∀ m ∈ c.messages, m.Everywhere (Message.Holds N F E)
  enums : ∀ e ∈ c.enums, E e

namespace Contents.Holds

theorem empty : Contents.empty.Holds N F E := ⟨nofun, nofun, nofun⟩

theorem append {a b : Contents} (ha : a.Holds N F E) (hb : b.Holds N F E) :
    (a ++ b).Holds N F E where
  fields := List.forall_mem_append.mpr ⟨ha.fields, hb.fields⟩
  messages := List.forall_mem_append.mpr ⟨ha.messages, hb.messages⟩
  enums := List.forall_mem_append.mpr ⟨ha.enums, hb.enums⟩

theorem enclosed {c : Contents} (hc : c.Holds N F E) (nesting : Nesting) {name : String}
    (hname : N name) : (c.enclosed nesting name).Holds N F E := by
  cases nesting with
  | nested =>
      have hm : Message.Everywhere (Message.Holds N F E) ⟨name, c.fields, c.messages, c.enums⟩ :=
        .mk ⟨hname, hc.fields, hc.enums⟩ hc.messages
      exact ⟨nofun, List.forall_mem_singleton.mpr hm, nofun⟩
  | flatten =>
      have hm : Message.Everywhere (Message.Holds N F E) ⟨name, c.fields, [], []⟩ :=
        .mk ⟨hname, hc.fields, nofun⟩ nofun
      exact ⟨nofun, List.forall_mem_append.mpr ⟨hc.messages, List.forall_mem_singleton.mpr hm⟩,
        hc.enums⟩

end Contents.Holds

variable (nesting : Nesting) (enumNames : List String)

mutual

/-- What holds of the parts of a member holds of what it adds. -/
theorem holds_contents (m : Member) (hN : ∀ n ∈ m.messageNames, N n)
    (hF : ∀ f ∈ m.fields, F (f.lowered enumNames)) (hE : ∀ e ∈ m.enums, E e.lowered) :
    (contents nesting enumNames m).Holds N F E := by
  cases m with
  | field f =>
      rw [contents]
      exact ⟨List.forall_mem_singleton.mpr (hF f (by simp [Member.fields])), nofun, nofun⟩
  | enum e =>
      rw [contents]
      exact ⟨nofun, nofun, List.forall_mem_singleton.mpr (hE e (by simp [Member.enums]))⟩
  | message name line body =>
      rw [Member.messageNames] at hN
      rw [Member.fields] at hF
      rw [Member.enums] at hE
      rw [contents]
      obtain ⟨hname, hbody⟩ := List.forall_mem_cons.mp hN
      exact (holds_contentsIn body hbody hF hE).enclosed nesting hname

/-- The same of the members of a body. -/
theorem holds_contentsIn (ms : List Member) (hN : ∀ n ∈ Member.messageNamesIn ms, N n)
    (hF : ∀ f ∈ Member.fieldsIn ms, F (f.lowered enumNames))
    (hE : ∀ e ∈ Member.enumsIn ms, E e.lowered) :
    (contentsIn nesting enumNames ms).Holds N F E := by
  cases ms with
  | nil =>
      rw [contentsIn]
      exact .empty
  | cons m ms =>
      rw [Member.messageNamesIn, List.forall_mem_append] at hN
      rw [Member.fieldsIn, List.forall_mem_append] at hF
      rw [Member.enumsIn, List.forall_mem_append] at hE
      rw [contentsIn]
      exact (holds_contents m hN.1 hF.1 hE.1).append (holds_contentsIn ms hN.2 hF.2 hE.2)

end

end

/-- A message of the file holds no definition. -/
def Flat (m : Message) : Prop := m.messages = [] ∧ m.enums = []

mutual

/-- What a member adds in flatten mode is flat. -/
theorem flat_contents (enumNames : List String) (m : Member) :
    ∀ n ∈ (contents .flatten enumNames m).messages, Flat n := by
  cases m with
  | field f =>
      rw [contents]
      exact nofun
  | enum e =>
      rw [contents]
      exact nofun
  | message name line body =>
      rw [contents]
      exact List.forall_mem_append.mpr
        ⟨flat_contentsIn enumNames body, List.forall_mem_singleton.mpr ⟨rfl, rfl⟩⟩

theorem flat_contentsIn (enumNames : List String) (ms : List Member) :
    ∀ n ∈ (contentsIn .flatten enumNames ms).messages, Flat n := by
  cases ms with
  | nil =>
      rw [contentsIn]
      exact nofun
  | cons m ms =>
      rw [contentsIn]
      exact List.forall_mem_append.mpr
        ⟨flat_contents enumNames m, flat_contentsIn enumNames ms⟩

end

end Lowering

namespace Schema

/-- The names of the messages of the tree, at any depth and in order. -/
def messageNames (s : Schema) : List String := Member.messageNamesIn s.members

/-- The enums of the tree, at any depth and in order. -/
def enums (s : Schema) : List EnumDecl := Member.enumsIn s.members

variable {s : Schema} {name : String} {enumNames : List String} {nesting : Nesting} {file : File}

/-- The messages and enums of a descriptor are the contents of the tree. -/
theorem contents_of_lower (h : s.lower name enumNames nesting = .ok file) :
    file.messages = (Lowering.contentsIn nesting enumNames s.members).messages ∧
      file.enums = (Lowering.contentsIn nesting enumNames s.members).enums := by
  rw [lower_eq] at h
  obtain ⟨-, rfl⟩ := checked_eq_ok.mp h
  exact ⟨rfl, rfl⟩

/-- What holds of the parts of the tree holds everywhere in its descriptor. -/
theorem holds_lower {N : String → Prop} {F : Field → Prop} {E : Enum → Prop}
    (h : s.lower name enumNames nesting = .ok file) (hN : ∀ n ∈ s.messageNames, N n)
    (hF : ∀ f ∈ s.fields, F (f.lowered enumNames)) (hE : ∀ e ∈ s.enums, E e.lowered) :
    (∀ m ∈ file.messages, m.Everywhere (Message.Holds N F E)) ∧ ∀ e ∈ file.enums, E e := by
  obtain ⟨hmessages, henums⟩ := contents_of_lower h
  have hc := Lowering.holds_contentsIn nesting enumNames s.members hN hF hE
  rw [hmessages, henums]
  exact ⟨hc.messages, hc.enums⟩

/-- In flatten mode the messages of a descriptor hold no definitions. -/
theorem flat_lower (h : s.lower name enumNames .flatten = .ok file) :
    ∀ m ∈ file.messages, Lowering.Flat m := by
  rw [(contents_of_lower h).1]
  exact Lowering.flat_contentsIn enumNames s.members

end Schema

end Schemata
