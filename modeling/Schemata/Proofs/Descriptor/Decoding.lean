/-
Decoding ignores presentation.

A decoder that is told by its own keys finds under each of them what is presented there, whatever
stands around it: `Presents.exists_values` says so once for all structures.  Each structure is then
put together from its parts, `Recovers` being carried from the elements of a list to the list and
from the values of an object to the object.
-/
import Mathlib.Data.List.Perm.Basic
import Schemata.Proofs.Descriptor.Presentation
import Schemata.Proofs.Descriptor.RoundTrip

namespace Schemata

namespace Descriptor

/-! ### Reading a structure -/

section

variable {s : Structure} {slots : List (String × Option Json)} {j : Json} {depth : Nat}

theorem valueAt?_perm {entries entries' : List (String × Json)} (h : entries.Perm entries')
    (key : String) : valueAt? entries key = valueAt? entries' key := by
  have hperm := h.filter fun e => decide (e.1 = key)
  unfold valueAt?
  generalize entries.filter (fun e => decide (e.1 = key)) = found,
    entries'.filter (fun e => decide (e.1 = key)) = found' at hperm ⊢
  rcases found with _ | ⟨e, _ | ⟨e', found⟩⟩
  · rw [hperm.nil_eq]
  · rw [hperm.singleton_eq]
  · have hlength := hperm.length_eq
    rcases found' with _ | ⟨d, _ | ⟨d', found'⟩⟩
    · simp at hlength
    · simp at hlength
    · rfl

/-- Keys that are not asked for do not stand in the way. -/
theorem valueAt?_append {entries inserted : List (String × Json)} {key : String}
    (h : ∀ e ∈ inserted, e.1 ≠ key) :
    valueAt? (entries ++ inserted) key = valueAt? entries key := by
  have hnone : inserted.filter (fun e => decide (e.1 = key)) = [] :=
    List.filter_eq_nil_iff.mpr fun e he => by simpa using h e he
  rw [valueAt?, valueAt?, List.filter_append, hnone, List.append_nil]

theorem mem_of_valueAt? {entries : List (String × Json)} {key : String} {v : Json}
    (h : valueAt? entries key = some (some v)) : (key, v) ∈ entries := by
  unfold valueAt? at h
  split at h
  case h_1 => cases h
  case h_2 key' v' hfilter =>
    cases h
    obtain ⟨hmem, hkey⟩ := List.mem_filter.mp (hfilter ▸ List.mem_singleton_self (key', v))
    obtain rfl : key' = key := by simpa using hkey
    exact hmem
  case h_3 => cases h

theorem ofEntries_injective {entries entries' : List (String × Json)}
    (h : Json.ofEntries entries = .ofEntries entries') : entries = entries' := by
  have hinj : Function.Injective fun e : String × Json => (some e.1, e.2) := by
    rintro ⟨name, v⟩ ⟨name', v'⟩ he
    simpa using he
  exact hinj.list_map (Json.object.inj h)

/-- What stands under the key presents what stood there, and does not nest too deep. -/
structure Found (depth : Nat) (entry : Key × Option Json) (w? : Option Json) : Prop where
  presents : PresentsEntry entry.1 entry.2 w?
  depth_le : ∀ w ∈ w?, (decodedPart entry.1.form w).depth ≤ depth

/-- A structure finds under each of its keys what presents the value that stood there. -/
theorem Presents.exists_values {values? : List (Option Json)} (hslots : (slots.map (·.1)).Nodup)
    (hvalues : List.Forall₂ (fun key v? => (key.name, v?) ∈ slots) s.keys values?)
    (h : Presents (.object s) (.ofEntries (filled slots)) j)
    (hdepth : (decodedPart (.object s) j).depth ≤ depth + 1) :
    ∃ found, structure? (s.keys.map Key.name) j = some found ∧
      List.Forall₂ (Found depth) (s.keys.zip values?) found := by
  generalize hv : Json.ofEntries (filled slots) = v at h
  cases h with
  | @object _ before after inserted row hkeys hrow hinserted hbefore hafter =>
      obtain rfl := ofEntries_injective hv
      have hnames : s.keys.map Key.name = row.map fun slot => slot.key.name := by
        rw [← hkeys, List.map_map]
        rfl
      have hnodup := s.keys_nodup
      rw [hnames] at hnodup
      -- Under a known key stands what is in its slot, before and after.
      have hread : ∀ (value? : Slot → Option Json) slot, slot ∈ row →
          valueAt? (filled (row.map fun slot => (slot.key.name, value? slot))) slot.key.name =
            some (value? slot) := fun value? slot hslot =>
        valueAt?_filled (by rw [List.map_map]; exact hnodup) (List.mem_map_of_mem hslot)
      have hfound : ∀ slot ∈ row, valueAt? after slot.key.name = some slot.after? := by
        intro slot hslot
        have hunknown : ∀ e ∈ inserted, e.1 ≠ slot.key.name := by
          rintro e he heq
          refine hinserted e he ?_
          rw [hnames, heq]
          exact List.mem_map_of_mem hslot
        rw [valueAt?_perm hafter, valueAt?_append hunknown, hread Slot.after? slot hslot]
      refine ⟨row.map Slot.after?, ?_, ?_⟩
      · rw [hnames]
        refine structure?_ofEntries ?_
        rw [List.forall₂_map_left_iff, List.forall₂_map_right_iff, List.forall₂_same]
        exact hfound
      · have hstood : ∀ slot ∈ row, valueAt? (filled slots) slot.key.name = some slot.before? :=
          fun slot hslot => by rw [valueAt?_perm hbefore, hread Slot.before? slot hslot]
        rw [← hkeys, List.forall₂_map_left_iff] at hvalues
        have hvalues : row.map Slot.before? = values? := by
          rw [← List.forall₂_eq_eq_eq, List.forall₂_map_left_iff]
          refine ((List.forall₂_and_left _ _).mpr ⟨hstood, hvalues⟩).imp fun slot v? hboth => ?_
          exact Option.some.inj (hboth.1.symm.trans (valueAt?_filled hslots hboth.2))
        rw [← hvalues, ← hkeys, List.zip_map', List.forall₂_map_left_iff,
          List.forall₂_map_right_iff, List.forall₂_same]
        intro slot hslot
        refine ⟨hrow slot hslot, fun w hw => depth_entry_le hdepth ?_ ?_⟩
        · rw [← hkeys]
          exact List.mem_map_of_mem hslot
        · exact mem_of_valueAt? (hw ▸ hfound slot hslot)

end

/-! ### Values, tags and lists -/

/-- The decoder gives `x` for every presentation of `v` that is not too deep. -/
def Recovers {α : Type} (form : Form) (decode? : Nat → Json → Option α) (v : Json) (x : α) : Prop :=
  ∀ depth j, Presents form v j → (decodedPart form j).depth ≤ depth → decode? depth j = some x

theorem recovers_string (s : String) : Recovers .plain (fun _ => string?) (.ofString s) s := by
  rintro depth j ⟨⟩ -
  rfl

theorem recovers_place (n : UInt64) : Recovers .plain (fun _ => place?) (placeToJson n) n := by
  rintro depth j ⟨⟩ -
  exact place?_placeToJson n

theorem recovers_tag (t : String) : Recovers .tag tag? (.ofString t) t := by
  intro depth j h hdepth
  cases h with
  | tag => rfl
  | tagObject =>
      have hpos : 0 < depth := Nat.lt_of_lt_of_le (Nat.succ_pos _) hdepth
      exact if_pos hpos

section

variable {α : Type} {form : Form} {decode? : Nat → Json → Option α} {encode : α → Json}
  {xs : List α}

theorem Recovers.list (h : ∀ x ∈ xs, Recovers form decode? (encode x) x) :
    Recovers (.list form) (list? decode?) (.array (xs.map encode)) xs := by
  intro depth j hpresents hdepth
  cases hpresents with
  | @list _ _ ws hlength hpresents =>
      cases depth with
      | zero => exact absurd (Nat.le_zero.mp hdepth) (Json.depth_array_ne_zero _)
      | succ depth =>
          have hws : List.Forall₂ (Presents form) (xs.map encode) ws :=
            List.forall₂_iff_zip.mpr ⟨hlength, fun hp => hpresents _ hp⟩
          have hxs := (List.forall₂_and_left _ _).mpr ⟨h, List.forall₂_map_left_iff.mp hws⟩
          have hall := (List.forall₂_and_left _ _).mpr ⟨depth_element_le hdepth, hxs.flip⟩
          exact mapM_eq_some (hall.imp fun w x ⟨hw, hx, hpresents⟩ => hx depth w hpresents hw)

end

/-! ### Keys -/

section

variable {α : Type} {name : String} {form : Form} {decode? : Nat → Json → Option α} {depth : Nat}
  {v? w? : Option Json}

theorem Found.required {v : Json} {x : α} (h : Found depth (.required name form, some v) w?)
    (hread : Recovers form decode? v x) : ∃ w, w? = some w ∧ decode? depth w = some x := by
  obtain ⟨hpresents, hdepth⟩ := h
  cases hpresents with
  | kept h => exact ⟨_, rfl, hread depth _ h (hdepth _ rfl)⟩
  | leftOut hdefault => cases hdefault

theorem Found.plain {v : Json} (h : Found depth (.required name .plain, some v) w?) :
    w? = some v := by
  have hread : Recovers .plain (fun _ j => some j) v v := by
    rintro depth j ⟨⟩ -
    rfl
  obtain ⟨w, rfl, hw⟩ := h.required hread
  exact hw

theorem Found.nullable {s? : Option String}
    (h : Found depth (.nullable name, s?.map .ofString) w?) : optionalString? w? = some s? := by
  generalize hv : s?.map Json.ofString = v? at h
  obtain ⟨hpresents, -⟩ := h
  cases hpresents with
  | kept h =>
      cases h
      rw [← hv, optionalString?_ofString]
  | leftOut hdefault =>
      -- A string is not null.
      obtain ⟨s, -, hs⟩ := Option.map_eq_some_iff.mp (hv.trans hdefault.symm)
      cases hs
  | absent => rw [← hv, optionalString?_ofString]
  | writtenOut hdefault h =>
      obtain rfl := Option.map_eq_none_iff.mp hv
      obtain rfl := Option.some.inj hdefault
      cases h
      rfl

/-- The label is recovered, or it is the one that is meant anyway and is not written. -/
theorem Found.label {l : Label}
    (h : Found depth (⟨name, .tag, some (.ofString Label.optional.tag)⟩,
      some (.ofString l.tag)) w?) :
    w? = none ∧ l = .optional ∨ ∃ w, w? = some w ∧ tag? depth w = some l.tag := by
  obtain ⟨hpresents, hdepth⟩ := h
  cases hpresents with
  | kept h => exact .inr ⟨_, rfl, recovers_tag l.tag depth _ h (hdepth _ rfl)⟩
  | leftOut hdefault =>
      have htag : Label.optional.tag = l.tag := by simpa [Json.ofString] using hdefault
      have hl : Label.ofTag? Label.optional.tag = Label.ofTag? l.tag := congrArg _ htag
      exact .inl ⟨rfl, by simpa using hl.symm⟩

/-- A list is recovered, whether or not an empty one is written. -/
theorem Found.listed {encode : α → Json} {xs : List α} (h : Found depth (.listed name form, v?) w?)
    (hv : v?.getD (.array []) = .array (xs.map encode))
    (hread : ∀ x ∈ xs, Recovers form decode? (encode x) x) :
    listOrEmpty? decode? depth w? = some xs := by
  have hempty : Json.array [] = .array (xs.map encode) → xs = [] := by
    intro he
    simpa using (Json.array.inj he).symm
  obtain ⟨hpresents, hdepth⟩ := h
  cases hpresents with
  | @kept _ v w h =>
      obtain rfl : v = .array (xs.map encode) := hv
      exact Recovers.list hread depth w h (hdepth w rfl)
  | leftOut hdefault =>
      obtain rfl := Option.some.inj hdefault
      rw [hempty hv, listOrEmpty?]
  | absent => rw [hempty hv, listOrEmpty?]
  | @writtenOut _ v w hdefault h =>
      obtain rfl := Option.some.inj hdefault
      rw [Option.getD_none] at hv
      rw [hv] at h
      exact Recovers.list hread depth w h (hdepth w rfl)

theorem getD_nonempty? (elements : List Json) :
    (nonempty? elements).getD (.array []) = .array elements := by
  rw [nonempty?]
  split_ifs with h
  · rw [h, Option.getD_none]
  · rw [Option.getD_some]

end

/-! ### Descriptors -/

/-- What a structure finds under its keys is all its decoder needs. -/
theorem recovers_object {α : Type} {s : Structure} {decode? : Nat → Json → Option α} {x : α}
    {slots : List (String × Option Json)} {values? : List (Option Json)}
    (hslots : (slots.map (·.1)).Nodup)
    (hvalues : List.Forall₂ (fun key v? => (key.name, v?) ∈ slots) s.keys values?)
    (hread : ∀ {depth j found}, structure? (s.keys.map Key.name) j = some found →
      List.Forall₂ (Found depth) (s.keys.zip values?) found → decode? (depth + 1) j = some x) :
    Recovers (.object s) decode? (.ofEntries (filled slots)) x := by
  intro depth j hpresents hdepth
  cases depth with
  | zero =>
      -- An object is one level deep at least.
      generalize Json.ofEntries (filled slots) = v at hpresents
      cases hpresents with
      | object => simp [Json.ofEntries, decodedPart, Json.depth] at hdepth
  | succ depth =>
      obtain ⟨found, hfound, hall⟩ := hpresents.exists_values hslots hvalues hdepth
      exact hread hfound hall

theorem recovers_field (f : Field) : Recovers (.object .field) field? f.toJson f := by
  have hvalues : List.Forall₂ (fun key v? => (key.name, v?) ∈ f.slots) Structure.field.keys
      [some (.ofString f.name), some (.integer f.number.toInt), some (.ofString f.kind.tag),
        f.typeName?.map .ofString, some (.ofString f.label.tag)] := by
    simp [Structure.keys, Field.slots, Key.required, Key.nullable]
  rw [f.toJson_eq]
  refine recovers_object (by simp [Field.slots]) hvalues fun {depth j _} hread hfound => ?_
  rcases hfound with _ | ⟨hname, _ | ⟨hnumber, _ | ⟨hkind, _ | ⟨htypeName, _ | ⟨hlabel, ⟨⟩⟩⟩⟩⟩⟩
  obtain rfl := hname.plain
  obtain rfl := hnumber.plain
  obtain ⟨kind, rfl, htag⟩ := hkind.required (recovers_tag f.kind.tag)
  have hread : structure? ["name", "number", "kind", "type_name", "label"] j = _ := hread
  rw [field?, hread]
  obtain ⟨rfl, hmeant⟩ | ⟨label, rfl, hwritten⟩ := hlabel.label
  · simp [htag, htypeName.nullable, ← hmeant]
  · simp [htag, htypeName.nullable, hwritten]

theorem recovers_enumValue (v : EnumValue) :
    Recovers (.object .enumValue) enumValue? v.toJson v := by
  have hvalues : List.Forall₂ (fun key v? => (key.name, v?) ∈ v.slots) Structure.enumValue.keys
      [some (.ofString v.name), some (.integer v.number.toInt)] := by
    simp [Structure.keys, EnumValue.slots, Key.required]
  rw [v.toJson_eq]
  refine recovers_object (by simp [EnumValue.slots]) hvalues fun {depth j _} hread hfound => ?_
  rcases hfound with _ | ⟨hname, _ | ⟨hnumber, ⟨⟩⟩⟩
  obtain rfl := hname.plain
  obtain rfl := hnumber.plain
  have hread : structure? ["name", "number"] j = _ := hread
  rw [enumValue?, hread]
  simp

theorem recovers_enum (e : Enum) : Recovers (.object .enum) enum? e.toJson e := by
  have hvalues : List.Forall₂ (fun key v? => (key.name, v?) ∈ e.slots) Structure.enum.keys
      [some (.ofString e.name), some (.array (e.values.map EnumValue.toJson))] := by
    simp [Structure.keys, Enum.slots, Key.required, Key.listed]
  rw [e.toJson_eq]
  refine recovers_object (by simp [Enum.slots]) hvalues fun {depth j _} hread hfound => ?_
  rcases hfound with _ | ⟨hname, _ | ⟨hlist, ⟨⟩⟩⟩
  obtain rfl := hname.plain
  have hlist := hlist.listed rfl fun v _ => recovers_enumValue v
  have hread : structure? ["name", "values"] j = _ := hread
  rw [enum?, hread]
  simp [hlist]

theorem recovers_message (m : Message) : Recovers (.object .message) message? m.toJson m := by
  induction m using Message.nestedInduction with
  | step m ih =>
      have hvalues : List.Forall₂ (fun key v? => (key.name, v?) ∈ m.slots) Structure.message.keys
          [some (.ofString m.name), some (.array (m.fields.map Field.toJson)),
            some (.array (m.messages.map Message.toJson)),
            some (.array (m.enums.map Enum.toJson))] := by
        simp [Structure.keys, Message.slots, Key.required, Key.listed]
      rw [m.toJson_eq]
      refine recovers_object (by simp [Message.slots]) hvalues fun {depth j _} hread hfound => ?_
      rcases hfound with _ | ⟨hname, _ | ⟨hfields, _ | ⟨hmessages, _ | ⟨henums, ⟨⟩⟩⟩⟩⟩
      obtain rfl := hname.plain
      have hfields := hfields.listed rfl fun f _ => recovers_field f
      have hmessages := hmessages.listed rfl ih
      have henums := henums.listed rfl fun e _ => recovers_enum e
      have hread : structure? ["name", "fields", "nested_messages", "nested_enums"] j = _ := hread
      -- A message nests, so it is not by definition what its parts make.
      have heta : Message.mk m.name m.fields m.messages m.enums = m := by cases m; rfl
      rw [message?, hread]
      simp [messages?_eq, hfields, hmessages, henums, heta]

theorem recovers_file (f : File) : Recovers (.object .file) file? f.toJson f := by
  have hvalues : List.Forall₂ (fun key v? => (key.name, v?) ∈ f.slots) Structure.file.keys
      [some (.ofString f.name), some (.ofString f.edition), f.package?.map .ofString,
        some (.array (f.dependencies.map .ofString)),
        nonempty? (f.publicDependencies.map placeToJson),
        nonempty? (f.weakDependencies.map placeToJson),
        some (.array (f.messages.map Message.toJson)),
        some (.array (f.enums.map Enum.toJson))] := by
    simp [Structure.keys, File.slots, Key.required, Key.nullable, Key.listed]
  rw [f.toJson_eq]
  refine recovers_object (by simp [File.slots]) hvalues fun {depth j _} hread hfound => ?_
  rcases hfound with _ | ⟨hname, _ | ⟨hedition, _ | ⟨hpackage, _ | ⟨hdependencies,
    _ | ⟨hpublic, _ | ⟨hweak, _ | ⟨hmessages, _ | ⟨henums, ⟨⟩⟩⟩⟩⟩⟩⟩⟩⟩
  obtain rfl := hname.plain
  obtain rfl := hedition.plain
  have hdependencies := hdependencies.listed rfl fun s _ => recovers_string s
  have hpublic := hpublic.listed (getD_nonempty? _) fun n _ => recovers_place n
  have hweak := hweak.listed (getD_nonempty? _) fun n _ => recovers_place n
  have hmessages := hmessages.listed rfl fun m _ => recovers_message m
  have henums := henums.listed rfl fun e _ => recovers_enum e
  have hread : structure? fileKeys j = _ := hread
  rw [file?, hread]
  simp [hpackage.nullable, hdependencies, hpublic, hweak, hmessages, henums]

end Descriptor

namespace DescriptorSet

open Descriptor

theorem ofJson?_of_presents {s : DescriptorSet} {j : Json}
    (hpresents : Presents (.object .set) s.toJson j)
    (hdepth : (decodedPart (.object .set) j).depth ≤ maxDepth) : ofJson? j = some s := by
  have hvalues : List.Forall₂ (fun key v? => (key.name, v?) ∈ s.slots) Structure.set.keys
      [some (.array (s.files.map File.toJson))] := by
    simp [Structure.keys, slots, Key.required]
  rw [s.toJson_eq] at hpresents
  obtain ⟨_, hread, hfound⟩ := hpresents.exists_values (by simp [slots]) hvalues hdepth
  rcases hfound with _ | ⟨hfiles, ⟨⟩⟩
  obtain ⟨files, rfl, hlist⟩ := hfiles.required (Recovers.list fun f _ => recovers_file f)
  have hread : structure? ["files"] j = _ := hread
  have hlist : list? Descriptor.file? (maxDepth - 1) files = some s.files := hlist
  rw [ofJson?, hread]
  simp [hlist]

/-- **Decoding ignores presentation.** -/
theorem ofJsonText_of_presents {s : DescriptorSet} {j : Json} {text : String} (hvalid : s.Valid)
    (hpresents : Presents (.object .set) s.toJson j)
    (hdepth : (decodedPart (.object .set) j).depth ≤ maxDepth) (htext : j.IsTextOf text) :
    ofJsonText text = .ok s := by
  rw [ofJsonText, Json.read?_eq_some_iff.mpr htext, Option.bind_some,
    ofJson?_of_presents hpresents hdepth]
  dsimp only
  rw [(offence?_eq_none s).mpr hvalid]

/-! ### A presentation of a small set -/

/-- A field as it is declared without a label. -/
def smallField : Field := ⟨"f", 1, .scalar .bool, none, .optional⟩

/-- A message that holds nothing but the field. -/
def smallMessage : Message := ⟨"M", [smallField], [], []⟩

/-- A file that holds nothing but the message. -/
def smallFile : File := { File.empty "a" "" with messages := [smallMessage] }

/-- The field with its keys turned round, its kind in an object and its label left out. -/
def turnedField : Json :=
  .ofEntries [("kind", .ofEntries [("BOOL", .null)]), ("number", .integer 1),
    ("name", .ofString "f")]

/-- The message without its empty lists. -/
def turnedMessage : Json :=
  .ofEntries [("fields", .array [turnedField]), ("name", .ofString "M")]

/-- The file with null for its package. -/
def turnedFile : Json :=
  .ofEntries [("package", .null), ("messages", .array [turnedMessage]),
    ("syntax", .ofString ""), ("name", .ofString "a")]

/-- The set behind a key that means nothing. -/
def turnedSet : Json :=
  .ofEntries [("x", .string none), ("files", .array [turnedFile])]

/-- A text of it with white space and escapes that are not needed. -/
def turnedText : String :=
  "\x7b\"x\":\"\\ud800\",\n\"files\":[\x7b\"package\": null,\"messages\":[\x7b\"fields\":[" ++
    "\x7b\"kind\":\x7b\"BOOL\":null\x7d,\"number\":1,\"name\":\"f\"\x7d],\"name\":\"M\"\x7d]," ++
    "\"syntax\":\"\",\"n\\u0061me\":\"a\"\x7d]\t\x7d"

theorem presents_turnedField : Presents (.object .field) smallField.toJson turnedField := by
  refine @Presents.object .field _ _ []
    [⟨.required "name" .plain, some (.ofString "f"), some (.ofString "f")⟩,
      ⟨.required "number" .plain, some (.integer 1), some (.integer 1)⟩,
      ⟨.required "kind" .tag, some (.ofString "BOOL"), some (.ofEntries [("BOOL", .null)])⟩,
      ⟨.nullable "type_name", none, none⟩,
      ⟨⟨"label", .tag, some (.ofString "OPTIONAL")⟩, some (.ofString "OPTIONAL"), none⟩]
    rfl ?_ (by simp) (by decide +kernel) (by decide +kernel)
  simp only [List.forall_mem_cons]
  exact ⟨.kept (.plain _), .kept (.plain _), .kept (.tagObject _), .absent _, .leftOut rfl,
    by simp⟩

theorem presents_turnedMessage :
    Presents (.object .message) smallMessage.toJson turnedMessage := by
  have hfields := @Presents.list (.object .field) [smallField.toJson] [turnedField] rfl
    (by simpa using presents_turnedField)
  refine @Presents.object .message _ _ []
    [⟨.required "name" .plain, some (.ofString "M"), some (.ofString "M")⟩,
      ⟨.listed "fields" (.object .field), some (.array [smallField.toJson]),
        some (.array [turnedField])⟩,
      ⟨.listed "nested_messages" (.object .message), some (.array []), none⟩,
      ⟨.listed "nested_enums" (.object .enum), some (.array []), none⟩]
    rfl ?_ (by simp) (by decide +kernel) (by decide +kernel)
  simp only [List.forall_mem_cons]
  exact ⟨.kept (.plain _), .kept hfields, .leftOut rfl, .leftOut rfl, by simp⟩

theorem presents_turnedFile : Presents (.object .file) smallFile.toJson turnedFile := by
  have hmessages := @Presents.list (.object .message) [smallMessage.toJson] [turnedMessage] rfl
    (by simpa using presents_turnedMessage)
  refine @Presents.object .file _ _ []
    [⟨.required "name" .plain, some (.ofString "a"), some (.ofString "a")⟩,
      ⟨.required "syntax" .plain, some (.ofString ""), some (.ofString "")⟩,
      ⟨.nullable "package", none, some .null⟩,
      ⟨.listed "dependencies" .plain, some (.array []), none⟩,
      ⟨.listed "public_dependencies" .plain, none, none⟩,
      ⟨.listed "weak_dependencies" .plain, none, none⟩,
      ⟨.listed "messages" (.object .message), some (.array [smallMessage.toJson]),
        some (.array [turnedMessage])⟩,
      ⟨.listed "enums" (.object .enum), some (.array []), none⟩]
    rfl ?_ (by simp) (by decide +kernel) (by decide +kernel)
  simp only [List.forall_mem_cons]
  exact ⟨.kept (.plain _), .kept (.plain _), .writtenOut rfl (.plain _), .leftOut rfl, .absent _,
    .absent _, .kept hmessages, .leftOut rfl, by simp⟩

theorem presents_turnedSet : Presents (.object .set) (toJson ⟨[smallFile]⟩) turnedSet := by
  have hfiles := @Presents.list (.object .file) [smallFile.toJson] [turnedFile] rfl
    (by simpa using presents_turnedFile)
  refine @Presents.object .set _ _ [("x", .string none)]
    [⟨.required "files" (.list (.object .file)), some (.array [smallFile.toJson]),
      some (.array [turnedFile])⟩]
    rfl ?_ (by decide) (by decide +kernel) (by decide +kernel)
  simp only [List.forall_mem_cons]
  exact ⟨.kept hfiles, by simp⟩

theorem turnedText_decodes :
    (decodedPart (.object .set) turnedSet).depth ≤ maxDepth ∧ turnedSet.IsTextOf turnedText ∧
      ofJsonText turnedText = .ok ⟨[smallFile]⟩ := by
  have hvalid : Valid ⟨[smallFile]⟩ := (offence?_eq_none _).mp (by decide +kernel)
  have hdepth : (decodedPart (.object .set) turnedSet).depth ≤ maxDepth := by decide +kernel
  have htext : turnedSet.IsTextOf turnedText := Json.read?_eq_some_iff.mp (by decide +kernel)
  exact ⟨hdepth, htext, ofJsonText_of_presents hvalid presents_turnedSet hdepth htext⟩

/-- The files are not left out, even where there are none: the key has no default. -/
theorem empty_without_files :
    Valid ⟨[]⟩ ∧ toJson ⟨[]⟩ = .ofEntries [("files", .array [])] ∧
      Json.IsTextOf (.ofEntries []) "\x7b\x7d" ∧
        (decodedPart (.object .set) (.ofEntries [])).depth ≤ maxDepth ∧
          ofJsonText "\x7b\x7d" = .error .malformed :=
  ⟨(offence?_eq_none _).mp rfl, rfl, Json.read?_eq_some_iff.mp (by decide +kernel), by decide,
    by decide +kernel⟩

end DescriptorSet

end Schemata
