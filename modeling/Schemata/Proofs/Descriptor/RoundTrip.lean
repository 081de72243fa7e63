/-
A set and its JSON text.

The text of a set is read back as the JSON value it was printed from, and that value
stands for the set as long as it does not nest too deep.  So what becomes of the text
depends on two things only: the depth of the value, and whether the set is valid.
-/
import Schemata.Proofs.Descriptor.Offence

namespace Schemata

namespace DescriptorSet

open Descriptor

/-- What reading makes of the text of a set. -/
theorem ofJsonText_toJsonText (s : DescriptorSet) :
    ofJsonText s.toJsonText =
      if s.toJson.depth ≤ maxDepth then
        match s.offence? with
        | some offence => .error offence
        | none => .ok s
      else .error .malformed := by
  rw [ofJsonText, toJsonText, Json.read?_pretty s.whole_toJson, Option.bind_some, ofJson?_toJson]
  split_ifs <;> rfl

theorem ofJsonText_of_valid {s : DescriptorSet} (h : s.Valid) :
    ofJsonText s.toJsonText =
      if s.toJson.depth ≤ maxDepth then .ok s else .error .malformed := by
  rw [ofJsonText_toJsonText, (offence?_eq_none s).mpr h]

/-- Decoding undoes encoding exactly on the valid sets, as far as the depth of their
JSON values is allowed. -/
theorem decoding_undoes_encoding (s : DescriptorSet) (hdepth : s.toJson.depth ≤ maxDepth) :
    (s.Valid → ofJsonText s.toJsonText = .ok s) ∧
      (¬s.Valid →
        (∃ name, ofJsonText s.toJsonText = .error (.duplicateFile name)) ∨
          ∃ file message field fault,
            ofJsonText s.toJsonText = .error (.invalidField file message field fault)) := by
  constructor
  · intro h
    rw [ofJsonText_of_valid h, if_pos hdepth]
  · intro h
    obtain ⟨e, he⟩ := Option.ne_none_iff_exists'.mp (mt (offence?_eq_none s).mp h)
    rw [ofJsonText_toJsonText, if_pos hdepth, he]
    cases e with
    | malformed => exact absurd he (filesOffence?_ne_malformed _ _)
    | duplicateFile name => exact .inl ⟨name, rfl⟩
    | invalidField file message field fault => exact .inr ⟨file, message, field, fault, rfl⟩

/-- A set whose names hold every kind of character that is not written as it stands. -/
def quoted : DescriptorSet :=
  ⟨[{ File.empty "a\"b\\c\n\x01é" "proto3" with
      dependencies := ["\t"]
      publicDependencies := [0]
      messages := [{ Message.empty "M" with
        fields := [⟨"f", -1, .message, some "\r", .repeated⟩]
        messages := [{ Message.empty "N" with
          fields := [⟨"g", 2, .scalar .bool, some "", .optional⟩] }] }] }]⟩

theorem quoted_reads_back :
    quoted.toJson.depth ≤ maxDepth ∧ quoted.Valid ∧ ofJsonText quoted.toJsonText = .ok quoted := by
  have hdepth : quoted.toJson.depth ≤ maxDepth := by decide +kernel
  have hvalid : quoted.Valid := (offence?_eq_none _).mp (by decide +kernel)
  exact ⟨hdepth, hvalid, (decoding_undoes_encoding quoted hdepth).1 hvalid⟩

end DescriptorSet

end Schemata
