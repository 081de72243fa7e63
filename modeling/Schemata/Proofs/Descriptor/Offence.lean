/-
Which offence is reported.

A set that is not valid may offend in many places, and its reader is told of one.  It is the
first in the order of the text: the files one after another, the name of a file before its
fields, the fields of a message before those of the messages nested in it.  Decoding walks the
set in this order and stops; `FirstOffence` says without walking that everything before an
offence is in order.
-/
import Schemata.Proofs.Descriptor.Json

namespace Schemata

namespace Descriptor

/-! ### Fields -/

theorem Field.hasTypeName_iff (f : Field) :
    f.hasTypeName = true ↔ ∃ t, f.typeName? = some t ∧ t ≠ "" := by
  rw [hasTypeName]
  cases f.typeName? <;> simp

theorem Field.hasTypeName_eq_false_iff (f : Field) :
    f.hasTypeName = false ↔ f.typeName? = none ∨ f.typeName? = some "" := by
  rw [hasTypeName]
  cases f.typeName? <;> simp

theorem Field.typeNameFault?_eq_none (f : Field) : f.typeNameFault? = none ↔ f.Proper := by
  rw [typeNameFault?, Proper, ← hasTypeName_iff, ← hasTypeName_eq_false_iff]
  cases f.kind <;> cases f.hasTypeName <;> simp [FieldKind.isNamed]

/-- The type name of the field disagrees with its kind in this way; an empty name counts as
none. -/
def Field.Disagrees (f : Field) : TypeNameFault → Prop
  | .missing => (f.kind = .message ∨ f.kind = .enum) ∧ (f.typeName? = none ∨ f.typeName? = some "")
  | .unexpected => (∃ s, f.kind = .scalar s) ∧ ∃ t, f.typeName? = some t ∧ t ≠ ""

theorem Field.typeNameFault?_eq_some {f : Field} {fault : TypeNameFault} :
    f.typeNameFault? = some fault ↔ f.Disagrees fault := by
  cases fault with
  | missing =>
      rw [Disagrees, ← hasTypeName_eq_false_iff, typeNameFault?]
      cases f.kind <;> cases f.hasTypeName <;> simp [FieldKind.isNamed]
  | unexpected =>
      rw [Disagrees, ← hasTypeName_iff, typeNameFault?]
      cases f.kind <;> cases f.hasTypeName <;> simp [FieldKind.isNamed]

/-- What is reported of the field of a file, if its type name disagrees with its kind. -/
def PlacedField.offence? (file : String) (x : PlacedField) : Option DecodeError :=
  x.field.typeNameFault?.map (.invalidField file (".".intercalate x.path) x.field.name)

theorem fieldOffence?_eq_findSome? (file : String) (path : List String) (fields : List Field) :
    fieldOffence? file (".".intercalate path) fields =
      (fields.map (⟨path, ·⟩)).findSome? (PlacedField.offence? file) := by
  rw [fieldOffence?, List.findSome?_map]
  rfl

/-- Names are preceded by `scope` where messages of the names `around` are around them. -/
def Scopes (scope : String) (around : List String) : Prop :=
  ∀ name, scope ++ name = ".".intercalate (around ++ [name])

theorem scopes_nil : Scopes "" [] := fun name => by
  rw [String.empty_append, List.nil_append, String.intercalate_singleton]

theorem scopes_concat (around : List String) (name : String) :
    Scopes (".".intercalate (around ++ [name]) ++ ".") (around ++ [name]) := fun inner => by
  rw [String.intercalate_append_of_ne_nil (m := [inner]) (by simp) (by simp),
    String.intercalate_singleton]

theorem Message.offenceIn?_eq_findSome? {file : String} {ms : List Message}
    (h : ∀ m ∈ ms, ∀ around, m.offence? file (".".intercalate (around ++ [m.name])) =
      (m.placedFields around).findSome? (PlacedField.offence? file))
    {scope : String} {around : List String} (hscope : Scopes scope around) :
    Message.offenceIn? file scope ms =
      (Message.placedFieldsIn around ms).findSome? (PlacedField.offence? file) := by
  induction ms with
  | nil => rfl
  | cons m ms ih =>
      obtain ⟨hm, hms⟩ := List.forall_mem_cons.mp h
      rw [offenceIn?, placedFieldsIn, List.findSome?_append, ← ih hms, ← hm, hscope]

theorem Message.offence?_eq_findSome? (file : String) (m : Message) (around : List String) :
    m.offence? file (".".intercalate (around ++ [m.name])) =
      (m.placedFields around).findSome? (PlacedField.offence? file) := by
  induction m using Message.nestedInduction generalizing around with
  | step m ih =>
      obtain ⟨name, fields, messages, enums⟩ := m
      rw [offence?, placedFields, List.findSome?_append, fieldOffence?_eq_findSome?,
        offenceIn?_eq_findSome? ih (scopes_concat around name)]

/-- The first offence in a file is that of the first of its fields that has one. -/
theorem File.offence?_eq_findSome? (f : File) :
    Message.offenceIn? f.name "" f.messages =
      f.placedFields.findSome? (PlacedField.offence? f.name) :=
  Message.offenceIn?_eq_findSome? (fun m _ => m.offence?_eq_findSome? f.name) scopes_nil

theorem PlacedField.offence?_eq_none {file : String} {x : PlacedField} :
    x.offence? file = none ↔ x.field.Proper := by
  rw [offence?, Option.map_eq_none_iff, Field.typeNameFault?_eq_none]

theorem PlacedField.offence?_eq_some {file : String} {x : PlacedField} {e : DecodeError} :
    x.offence? file = some e ↔ ∃ fault, x.field.Disagrees fault ∧
      e = .invalidField file (".".intercalate x.path) x.field.name fault := by
  rw [offence?, Option.map_eq_some_iff]
  simp only [Field.typeNameFault?_eq_some, @eq_comm _ e]

theorem File.offence?_eq_none (f : File) :
    Message.offenceIn? f.name "" f.messages = none ↔ f.Proper := by
  rw [f.offence?_eq_findSome?, List.findSome?_eq_none_iff, f.proper_iff]
  exact forall₂_congr fun _ _ => PlacedField.offence?_eq_none

/-! ### Files -/

theorem filesOffence?_eq_none (seen : List String) (files : List File) :
    filesOffence? seen files = none ↔
      ((files.map (·.name)).Nodup ∧ ∀ f ∈ files, f.name ∉ seen) ∧
        ∀ f ∈ files, f.Proper := by
  induction files generalizing seen with
  | nil => simp [filesOffence?]
  | cons f fs ih =>
      rw [filesOffence?]
      split_ifs with hseen
      · simp [hseen]
      · rw [Option.or_eq_none_iff, ih, f.offence?_eq_none]
        simp only [List.map_cons, List.nodup_cons, List.forall_mem_cons, List.mem_append,
          List.mem_singleton, List.mem_map, not_or, not_exists, File.Proper]
        grind

theorem filesOffence?_append (seen : List String) (fs gs : List File) :
    filesOffence? seen (fs ++ gs) =
      (filesOffence? seen fs).or (filesOffence? (seen ++ fs.map (·.name)) gs) := by
  induction fs generalizing seen with
  | nil => simp [filesOffence?]
  | cons f fs ih =>
      rw [List.cons_append, filesOffence?, filesOffence?]
      split_ifs with hseen
      · rfl
      · rw [ih, Option.or_assoc, List.map_cons, List.append_assoc, List.singleton_append]

/-- The first offence among files is that of the first file that has one. -/
theorem filesOffence?_eq_some {seen : List String} {files : List File} {e : DecodeError} :
    filesOffence? seen files = some e ↔ ∃ before f after, files = before ++ f :: after ∧
      filesOffence? seen before = none ∧
      filesOffence? (seen ++ before.map (·.name)) [f] = some e := by
  constructor
  · induction files generalizing seen with
    | nil => nofun
    | cons f fs ih =>
        intro h
        rw [← List.singleton_append, filesOffence?_append, Option.or_eq_some_iff] at h
        rcases h with h | ⟨hnone, h⟩
        · exact ⟨[], f, fs, rfl, rfl, by simpa using h⟩
        · obtain ⟨before, g, after, rfl, hbefore, hg⟩ := ih h
          refine ⟨f :: before, g, after, rfl, ?_, ?_⟩
          · rw [← List.singleton_append, filesOffence?_append, hnone, Option.none_or, hbefore]
          · simpa using hg
  · rintro ⟨before, f, after, rfl, hbefore, hf⟩
    rw [filesOffence?_append, hbefore, Option.none_or, ← List.singleton_append,
      filesOffence?_append, hf, Option.some_or]

/-- A file offends by its name, or by the first of its fields that does. -/
theorem filesOffence?_singleton {seen : List String} {f : File} {e : DecodeError} :
    filesOffence? seen [f] = some e ↔
      (f.name ∈ seen ∧ e = .duplicateFile f.name) ∨
        (f.name ∉ seen ∧ ∃ earlier x later fault, f.placedFields = earlier ++ x :: later ∧
          (∀ y ∈ earlier, y.field.Proper) ∧ x.field.Disagrees fault ∧
          e = .invalidField f.name (".".intercalate x.path) x.field.name fault) := by
  rw [filesOffence?, filesOffence?, Option.or_none]
  split_ifs with hname
  · simp [hname, eq_comm]
  · rw [File.offence?_eq_findSome?, List.findSome?_eq_some_iff]
    simp only [hname, false_and, false_or, not_false_eq_true, true_and,
      PlacedField.offence?_eq_some, PlacedField.offence?_eq_none]
    constructor
    · rintro ⟨earlier, x, later, hfields, ⟨fault, hfault, he⟩, hearlier⟩
      exact ⟨earlier, x, later, fault, hfields, hearlier, hfault, he⟩
    · rintro ⟨earlier, x, later, fault, hfields, hearlier, hfault, he⟩
      exact ⟨earlier, x, later, hfields, ⟨fault, hfault, he⟩, hearlier⟩

/-- An offence names a file or a field. -/
theorem filesOffence?_ne_malformed (seen : List String) (files : List File) :
    filesOffence? seen files ≠ some .malformed := by
  intro h
  obtain ⟨before, f, -, -, -, hf⟩ := filesOffence?_eq_some.mp h
  rcases filesOffence?_singleton.mp hf with ⟨-, he⟩ | ⟨-, _, _, _, _, -, -, -, he⟩ <;> cases he

end Descriptor

namespace DescriptorSet

open Descriptor

/-- A set has an offence exactly if it is not valid. -/
theorem offence?_eq_none (s : DescriptorSet) : s.offence? = none ↔ s.Valid := by
  rw [offence?, Descriptor.filesOffence?_eq_none]
  exact ⟨fun ⟨⟨hnames, _⟩, hproper⟩ => ⟨hnames, hproper⟩,
    fun ⟨hnames, hproper⟩ => ⟨⟨hnames, by simp⟩, hproper⟩⟩

/-- The offence is one of the set, and nothing before it is one. -/
inductive FirstOffence (s : DescriptorSet) : DecodeError → Prop
  /-- A file repeats the name of one before it. -/
  | duplicate {before after : List File} {f : File} (hfiles : s.files = before ++ f :: after)
      (hbefore : Valid ⟨before⟩) (hname : f.name ∈ names ⟨before⟩) :
      FirstOffence s (.duplicateFile f.name)
  /-- A field disagrees with its kind, in a file whose name is new. -/
  | field {before after : List File} {f : File} {earlier later : List PlacedField}
      {x : PlacedField} {fault : TypeNameFault} (hfiles : s.files = before ++ f :: after)
      (hbefore : Valid ⟨before⟩) (hname : f.name ∉ names ⟨before⟩)
      (hfields : f.placedFields = earlier ++ x :: later)
      (hearlier : ∀ y ∈ earlier, y.field.Proper) (hfault : x.field.Disagrees fault) :
      FirstOffence s (.invalidField f.name (".".intercalate x.path) x.field.name fault)

theorem offence?_eq_some {s : DescriptorSet} {e : DecodeError} :
    s.offence? = some e ↔ s.FirstOffence e := by
  rw [offence?, filesOffence?_eq_some]
  constructor
  · rintro ⟨before, f, after, hfiles, hnone, hf⟩
    have hbefore : Valid ⟨before⟩ := (offence?_eq_none ⟨before⟩).mp hnone
    rw [List.nil_append] at hf
    rcases filesOffence?_singleton.mp hf with
      ⟨hname, rfl⟩ | ⟨hname, earlier, x, later, fault, hfields, hearlier, hfault, rfl⟩
    · exact .duplicate hfiles hbefore hname
    · exact .field hfiles hbefore hname hfields hearlier hfault
  · rintro (⟨hfiles, hbefore, hname⟩ | ⟨hfiles, hbefore, hname, hfields, hearlier, hfault⟩)
    · refine ⟨_, _, _, hfiles, (offence?_eq_none _).mpr hbefore, ?_⟩
      exact filesOffence?_singleton.mpr (.inl ⟨hname, rfl⟩)
    · refine ⟨_, _, _, hfiles, (offence?_eq_none _).mpr hbefore, ?_⟩
      exact filesOffence?_singleton.mpr
        (.inr ⟨hname, _, _, _, _, hfields, hearlier, hfault, rfl⟩)

/-- **Decoding reports the first offence.**  A text that decodes to a set is read as that set
exactly if the set is valid, and otherwise with the first of its offences: the files in
sequence, the name of a file before its fields, and the fields of a message before those of
the messages nested in it. -/
theorem ofJsonText_reports_first {text : String} {s : DescriptorSet}
    (h : (Json.read? text).bind ofJson? = some s) :
    (∀ t, ofJsonText text = .ok t ↔ t = s ∧ s.Valid) ∧
      ∀ e, ofJsonText text = .error e ↔ s.FirstOffence e := by
  rw [← offence?_eq_none]
  simp only [← offence?_eq_some]
  cases hfirst : s.offence? with
  | none =>
      have hread : ofJsonText text = .ok s := by simp only [ofJsonText, h, hfirst]
      simp [hread, eq_comm]
  | some first =>
      have hread : ofJsonText text = .error first := by simp only [ofJsonText, h, hfirst]
      simp [hread]

/-- A set with a field without the name of a type two messages down, a scalar with one behind
it, and a file whose name is taken. -/
def crowded : DescriptorSet :=
  ⟨[{ File.empty "a" "proto3" with
      messages := [{ Message.empty "M" with
        fields := [⟨"s", 1, .scalar .bool, some "", .optional⟩] }] },
    { File.empty "b" "proto3" with
      messages :=
        [{ Message.empty "P" with
          messages := [{ Message.empty "Q" with
            fields :=
              [⟨"t", 1, .enum, some "E", .optional⟩, ⟨"u", 2, .message, some "", .optional⟩] }]
          },
         { Message.empty "Z" with
          fields := [⟨"v", 1, .scalar .bool, some "T", .optional⟩] }] },
    File.empty "a" "proto3"]⟩

/-- The field without the name of a type comes first, and it is the one that is reported. -/
theorem crowded_reports_first :
    (Json.read? crowded.toJsonText).bind ofJson? = some crowded ∧
    crowded.FirstOffence (.invalidField "b" "P.Q" "u" .missing) ∧
    ofJsonText crowded.toJsonText = .error (.invalidField "b" "P.Q" "u" .missing) := by
  have hdepth : crowded.toJson.depth ≤ maxDepth := by decide +kernel
  have hread : (Json.read? crowded.toJsonText).bind ofJson? = some crowded := by
    rw [toJsonText, Json.read?_pretty crowded.whole_toJson, Option.bind_some, ofJson?_toJson,
      if_pos hdepth]
  have hfirst : crowded.FirstOffence (.invalidField "b" "P.Q" "u" .missing) :=
    offence?_eq_some.mp (by decide +kernel)
  exact ⟨hread, hfirst, ((ofJsonText_reports_first hread).2 _).mpr hfirst⟩

end DescriptorSet

end Schemata
