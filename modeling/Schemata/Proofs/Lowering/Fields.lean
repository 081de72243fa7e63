/-
What lowering makes of fields.

A field is given the name of a type exactly if its kind goes with one: a scalar is
lowered without a name, and a named type has a last segment, so its text is not empty.
A tree is lowered only if all its fields are such, and a descriptor has no others.
-/
import Schemata.Proofs.Descriptor.Valid
import Schemata.Proofs.Lowering.Imports
import Schemata.Proofs.Lowering.Parts

namespace Schemata

open Fallible Descriptor

/-- A dotted name has a text if its last segment has. -/
theorem intercalate_ne_empty {segments : List String} {last : String}
    (hlast : segments.getLast? = some last) (hne : last ≠ "") :
    ".".intercalate segments ≠ "" := by
  obtain ⟨init, rfl⟩ := List.getLast?_eq_some_iff.mp hlast
  cases init with
  | nil => simpa using hne
  | cons s ss =>
      rw [String.intercalate_append_of_ne_nil (by simp) (by simp)]
      simp

/-- A field whose type names something is lowered to a proper one. -/
theorem FieldDecl.proper_lowered {f : FieldDecl} (h : ¬ f.type.NamesNothing)
    (enumNames : List String) : (f.lowered enumNames).Proper := by
  cases htype : f.type with
  | scalar s =>
      rw [lowered, htype]
      exact .inl rfl
  | named segments =>
      rw [htype, TypeRef.NamesNothing, not_or] at h
      obtain ⟨last, hlast⟩ := Option.ne_none_iff_exists'.mp (List.getLast?_eq_none_iff.not.mpr h.1)
      have htext : ".".intercalate segments ≠ "" :=
        intercalate_ne_empty hlast fun he => h.2 (he ▸ hlast)
      rw [lowered, htype]
      -- Whichever of the two kinds the name gets, it goes with a name.
      dsimp only
      split_ifs <;> exact ⟨_, rfl, htext⟩

/-- A message is proper if the fields of every message within it are. -/
theorem Descriptor.Message.Everywhere.proper {N : String → Prop} {E : Enum → Prop} {m : Message}
    (h : m.Everywhere (Message.Holds N Field.Proper E)) : m.Proper := by
  induction h with
  | mk own _ ih => exact (Message.proper_iff _).mpr ⟨own.fields, ih⟩

/-- A descriptor has proper fields only. -/
theorem Schema.proper_lower {s : Schema} {name : String} {enumNames : List String}
    {nesting : Nesting} {file : File} (h : s.lower name enumNames nesting = .ok file) :
    file.Proper := by
  have hlower := h
  rw [lower_eq] at hlower
  have hfields := ((s.faults_eq_nil name).mp (checked_eq_ok.mp hlower).1).2
  have hall := holds_lower (N := fun _ => True) (F := Field.Proper) (E := fun _ => True) h
    (fun _ _ => trivial) (fun f hf => f.proper_lowered (hfields f hf) enumNames)
    (fun _ _ => trivial)
  exact fun m hm => (hall.1 m hm).proper

/-- A compiled file has proper fields only. -/
theorem proper_of_compileBytes {name : String} {bytes : ByteArray} {nesting : Nesting}
    {c : Compiled} (h : compileBytes name bytes nesting = .ok c) : c.file.Proper := by
  obtain ⟨_, _, _, _, _, hlower⟩ := compileBytes_eq_ok h
  exact Schema.proper_lower hlower

end Schemata
