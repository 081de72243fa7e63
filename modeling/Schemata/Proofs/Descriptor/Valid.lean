/-
Which sets may be read.

`Valid` says it of a whole set without walking it: the names differ, and the kind of
every field, however deep, agrees with its type name.  `placedFields` puts the fields of a
file in the order of the text, each with the names of the messages around it: those of a
message come before those of the messages nested in it.
-/
import Mathlib.Data.List.Basic
import Schemata.Descriptor.Decode
import Schemata.Proofs.Descriptor.Set

namespace Schemata

namespace Descriptor

/-- What holds of a message once it holds of the messages nested in it holds of all. -/
theorem Message.nestedInduction {motive : Message → Prop}
    (step : ∀ m, (∀ n ∈ m.messages, motive n) → motive m) : ∀ m, motive m
  | ⟨name, fields, messages, enums⟩ => step _ fun n hn =>
      have hlt : sizeOf n < sizeOf (Message.mk name fields messages enums) := by
        have : sizeOf n < sizeOf messages := List.sizeOf_lt_of_mem hn
        simp only [Message.mk.sizeOf_spec]
        omega
      nestedInduction step n
termination_by m => sizeOf m
decreasing_by exact hlt

/-! ### Fields -/

/-- The field of a message or an enum has a type name, and it is not empty; a scalar
has none, or an empty one. -/
def Field.Proper (f : Field) : Prop :=
  match f.kind with
  | .message | .enum => ∃ t, f.typeName? = some t ∧ t ≠ ""
  | .scalar _ => f.typeName? = none ∨ f.typeName? = some ""

/-- The field is one of the message's own or of a message nested in it at any depth. -/
inductive Message.HasField (f : Field) : Message → Prop
  | own {m : Message} (h : f ∈ m.fields) : HasField f m
  | nested {m n : Message} (hn : n ∈ m.messages) (h : HasField f n) : HasField f m

/-- Every field of the message is proper. -/
def Message.Proper (m : Message) : Prop := ∀ f, m.HasField f → f.Proper

theorem Message.proper_iff (m : Message) :
    m.Proper ↔ (∀ f ∈ m.fields, f.Proper) ∧ ∀ n ∈ m.messages, n.Proper := by
  constructor
  · exact fun h => ⟨fun f hf => h f (.own hf), fun n hn f hf => h f (.nested hn hf)⟩
  · rintro ⟨hown, hnested⟩ f (hf | ⟨hn, hf⟩)
    · exact hown f hf
    · exact hnested _ hn f hf

/-- Every field of the file is proper. -/
def File.Proper (f : File) : Prop := ∀ m ∈ f.messages, m.Proper

/-! ### Fields in order -/

/-- A field and the names of the messages it stands in, from the outside in. -/
structure PlacedField where
  path : List String
  field : Field
deriving DecidableEq, Repr

mutual

/-- The fields of a message that stands in messages of the names `around`: its own, and then
those of the messages nested in it. -/
def Message.placedFields (around : List String) : Message → List PlacedField
  | ⟨name, fields, messages, _⟩ =>
    fields.map (⟨around ++ [name], ·⟩) ++ Message.placedFieldsIn (around ++ [name]) messages

/-- The fields of messages that stand in messages of the names `around`. -/
def Message.placedFieldsIn (around : List String) : List Message → List PlacedField
  | [] => []
  | m :: ms => m.placedFields around ++ Message.placedFieldsIn around ms

end

/-- The fields of a file. -/
def File.placedFields (f : File) : List PlacedField := Message.placedFieldsIn [] f.messages

theorem Message.exists_placedFieldsIn {f : Field} {ms : List Message}
    (h : ∀ m ∈ ms, ∀ around, (∃ x ∈ m.placedFields around, x.field = f) ↔ m.HasField f)
    (around : List String) :
    (∃ x ∈ Message.placedFieldsIn around ms, x.field = f) ↔ ∃ m ∈ ms, m.HasField f := by
  induction ms with
  | nil => simp [placedFieldsIn]
  | cons m ms ih =>
      obtain ⟨hm, hms⟩ := List.forall_mem_cons.mp h
      simp only [placedFieldsIn, List.mem_append, or_and_right, exists_or, hm, ih hms,
        List.mem_cons, exists_eq_left]

/-- The fields in order are the fields there are. -/
theorem Message.exists_placedFields {f : Field} (m : Message) (around : List String) :
    (∃ x ∈ m.placedFields around, x.field = f) ↔ m.HasField f := by
  induction m using Message.nestedInduction generalizing around with
  | step m ih =>
      obtain ⟨name, fields, messages, enums⟩ := m
      simp only [placedFields, List.mem_append, or_and_right, exists_or, exists_placedFieldsIn ih]
      constructor
      · rintro (⟨x, hx, rfl⟩ | ⟨n, hn, h⟩)
        · obtain ⟨g, hg, rfl⟩ := List.mem_map.mp hx
          exact .own hg
        · exact .nested hn h
      · rintro (h | ⟨hn, h⟩)
        · exact .inl ⟨_, List.mem_map_of_mem h, rfl⟩
        · exact .inr ⟨_, hn, h⟩

theorem File.proper_iff (f : File) : f.Proper ↔ ∀ x ∈ f.placedFields, x.field.Proper := by
  have hfields := fun g : Field => Message.exists_placedFieldsIn (f := g)
    (fun m (_ : m ∈ f.messages) => m.exists_placedFields) []
  constructor
  · intro h x hx
    obtain ⟨m, hm, hfield⟩ := (hfields x.field).mp ⟨x, hx, rfl⟩
    exact h m hm _ hfield
  · intro h m hm g hg
    obtain ⟨x, hx, rfl⟩ := (hfields g).mpr ⟨m, hm, hg⟩
    exact h x hx

end Descriptor

namespace DescriptorSet

open Descriptor

/-- The files have different names, and every field is proper. -/
structure Valid (s : DescriptorSet) : Prop where
  names_nodup : s.names.Nodup
  proper : ∀ f ∈ s.files, f.Proper

/-! ### Sets that grow -/

variable {s t : DescriptorSet}

theorem valid_empty : Valid empty := ⟨List.nodup_nil, by simp [empty]⟩

/-- A file with proper fields keeps the set valid: its name is taken or new. -/
theorem Valid.insert (h : s.Valid) {f : File} (hf : f.Proper) : (s.insert f).Valid where
  names_nodup := nodup_insert h.names_nodup f
  proper := fun g hg => (mem_of_mem_insert hg).elim (h.proper g) fun he => he ▸ hf

theorem Valid.merge (hs : s.Valid) (ht : t.Valid) : (s.merge t).Valid := by
  have all : ∀ (files : List File) (s : DescriptorSet), s.Valid → (∀ f ∈ files, f.Proper) →
      (files.foldl DescriptorSet.insert s).Valid := by
    intro files
    induction files with
    | nil => exact fun s hs _ => hs
    | cons f fs ih =>
        intro s hs hfiles
        exact ih _ (hs.insert (hfiles f List.mem_cons_self)) fun g hg => hfiles g (.tail _ hg)
  exact all t.files s hs ht.proper

end DescriptorSet

end Schemata
