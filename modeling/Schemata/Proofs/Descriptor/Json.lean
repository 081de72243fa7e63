/-
Decoding undoes encoding.

Each decoder is given the depth it may still enter.  On what its encoder made it gives
back the thing encoded if that depth is enough, and nothing if it is not: `Undoes` says
both at once, and is carried from the elements of a list to the list and from the
values of an object to the object.  An entry that was left out costs no depth and
comes back as the value that stands for nothing.  And what is encoded has whole numbers only,
so its text is read back as it was printed.
-/
import Mathlib.Data.Option.Basic
import Mathlib.Tactic.SplitIfs
import Schemata.Proofs.Descriptor.Valid
import Schemata.Proofs.Json.Depth
import Schemata.Proofs.Json.Printed
import Schemata.Descriptor.Encode

namespace Schemata

namespace Descriptor

/-- The decoder gives back `x` from `j` where it may go as deep as `j` goes, and
nothing elsewhere. -/
def Undoes {α : Type} (decode? : Nat → Json → Option α) (j : Json) (x : α) : Prop :=
  ∀ depth, decode? depth j = if j.depth ≤ depth then some x else none

/-! ### Lists -/

/-- A list is decoded element by element. -/
theorem mapM_eq_some {α β : Type} {f : α → Option β} {xs : List α} {ys : List β}
    (h : List.Forall₂ (fun x y => f x = some y) xs ys) : xs.mapM f = some ys := by
  induction h with
  | nil => rfl
  | cons hx _ ih => simp [List.mapM_cons, hx, ih]

section

variable {α : Type} {decode? : Nat → Json → Option α} {encode : α → Json}

/-- A step that needs a value needs what the value needs. -/
theorem bind_guard {β : Type} {p : Prop} [Decidable p] (x : α) (next : α → Option β) :
    (if p then some x else none).bind next = if p then next x else none := by
  split_ifs <;> rfl

theorem mapM_undoes {xs : List α} (h : ∀ x ∈ xs, Undoes decode? (encode x) x) (depth : Nat) :
    (xs.map encode).mapM (decode? depth) =
      if ∀ j ∈ xs.map encode, j.depth ≤ depth then some xs else none := by
  induction xs with
  | nil => simp
  | cons x xs ih =>
      rw [List.map_cons, List.mapM_cons, h x List.mem_cons_self depth,
        ih fun y hy => h y (.tail _ hy)]
      simp only [List.forall_mem_cons]
      split_ifs <;> simp_all

theorem Undoes.list (xs : List α) (h : ∀ x ∈ xs, Undoes decode? (encode x) x) :
    Undoes (list? decode?) (.array (xs.map encode)) xs := by
  intro depth
  cases depth with
  | zero => simp [list?]
  | succ depth =>
      rw [list?, mapM_undoes h]
      simp only [Json.depth_array_le]

@[simp] theorem listOrEmpty?_some (depth : Nat) (j : Json) :
    listOrEmpty? decode? depth (some j) = list? decode? depth j := rfl

/-- The list as the value of an entry, if the entry is written only for a list with
elements. -/
def nonempty? (elements : List Json) : Option Json :=
  if elements = [] then none else some (.array elements)

theorem listOrEmpty?_nonempty? (xs : List α) (h : ∀ x ∈ xs, Undoes decode? (encode x) x)
    (depth : Nat) :
    listOrEmpty? decode? depth (nonempty? (xs.map encode)) =
      if ∀ j ∈ nonempty? (xs.map encode), j.depth ≤ depth then some xs else none := by
  cases xs with
  | nil => simp [nonempty?, listOrEmpty?]
  | cons x xs =>
      have hlist := Undoes.list _ h depth
      simp only [nonempty?, List.map_cons, reduceCtorEq, if_false] at hlist ⊢
      rw [listOrEmpty?, hlist]
      simp

end

/-! ### Structures

The entries of an object stand in slots, one for each key, and an empty slot is an
entry left out.
-/

/-- The entries of an object with these slots. -/
def filled (slots : List (String × Option Json)) : List (String × Json) :=
  slots.flatMap fun slot => optionalEntry slot.1 slot.2

theorem filter_optionalEntry (key key' : String) (v? : Option Json) :
    (optionalEntry key v?).filter (·.1 = key') =
      if key = key' then optionalEntry key' v? else [] := by
  cases v? <;> by_cases h : key = key' <;> simp [optionalEntry, h]

theorem nonemptyEntry_eq (key : String) (elements : List Json) :
    nonemptyEntry key elements = optionalEntry key (nonempty? elements) := by
  cases elements <;> rfl

theorem filter_filled {slots : List (String × Option Json)} {key : String} {v? : Option Json}
    (hkeys : (slots.map (·.1)).Nodup) (hslot : (key, v?) ∈ slots) :
    (filled slots).filter (·.1 = key) = optionalEntry key v? := by
  have other : ∀ {slots : List (String × Option Json)}, key ∉ slots.map (·.1) →
      (filled slots).filter (·.1 = key) = [] := by
    intro slots hkey
    rw [filled, List.filter_flatMap, List.flatMap_eq_nil_iff]
    rintro ⟨key', w?⟩ hw
    rw [filter_optionalEntry, if_neg]
    rintro rfl
    exact hkey (List.mem_map.mpr ⟨_, hw, rfl⟩)
  induction slots with
  | nil => simp at hslot
  | cons slot slots ih =>
      obtain ⟨hkey, hkeys⟩ := List.nodup_cons.mp hkeys
      have hcons : filled (slot :: slots) = optionalEntry slot.1 slot.2 ++ filled slots := rfl
      rw [hcons, List.filter_append, filter_optionalEntry]
      rcases List.mem_cons.mp hslot with rfl | hslot
      · rw [if_pos rfl, other hkey, List.append_nil]
      · have hmem : key ∈ slots.map (·.1) := List.mem_map.mpr ⟨_, hslot, rfl⟩
        have hne : slot.1 ≠ key := fun h => hkey (show slot.1 ∈ slots.map (·.1) from h ▸ hmem)
        rw [if_neg hne, ih hkeys hslot, List.nil_append]

theorem valueAt?_filled {slots : List (String × Option Json)} {key : String} {v? : Option Json}
    (hkeys : (slots.map (·.1)).Nodup) (hslot : (key, v?) ∈ slots) :
    valueAt? (filled slots) key = some v? := by
  rw [valueAt?, filter_filled hkeys hslot]
  cases v? <;> rfl

/-- A structure finds in an object what is there under each of its keys. -/
theorem structure?_ofEntries {entries : List (String × Json)} {keys : List String}
    {values : List (Option Json)}
    (hvalues : List.Forall₂ (fun key v? => valueAt? entries key = some v?) keys values) :
    structure? keys (.ofEntries entries) = some values := by
  have hreadable : readable? (entries.map fun e => (some e.1, e.2)) = some entries :=
    mapM_eq_some (List.forall₂_map_left_iff.mpr (List.forall₂_same.mpr fun _ _ => rfl))
  show (readable? (entries.map fun e => (some e.1, e.2))).bind _ = some values
  rw [hreadable]
  exact mapM_eq_some hvalues

/-- A structure finds in an object what is in the slots of its keys. -/
theorem structure?_filled {slots : List (String × Option Json)} {keys : List String}
    {values : List (Option Json)} (hkeys : (slots.map (·.1)).Nodup)
    (hvalues : List.Forall₂ (fun key v? => (key, v?) ∈ slots) keys values) :
    structure? keys (.ofEntries (filled slots)) = some values :=
  structure?_ofEntries (hvalues.imp fun _ _ hslot => valueAt?_filled hkeys hslot)

theorem depth_filled_le {slots : List (String × Option Json)} {n : Nat} :
    (Json.ofEntries (filled slots)).depth ≤ n + 1 ↔
      ∀ slot ∈ slots, ∀ v ∈ slot.2, v.depth ≤ n := by
  simp only [Json.depth_ofEntries_le, filled, List.forall_mem_flatMap, optionalEntry,
    List.forall_mem_map, Option.mem_toList, Option.mem_def]

/-! ### Values -/

@[simp] theorem string?_ofString (s : String) : string? (.ofString s) = some s := rfl

@[simp] theorem optionalString?_ofString (s? : Option String) :
    optionalString? (s?.map .ofString) = some s? := by
  cases s? <;> rfl

@[simp] theorem number?_toInt (n : Int32) : number? (.integer n.toInt) = some n := by
  have hlt := n.toInt_lt
  have hle := n.le_toInt
  rw [number?, if_pos ⟨by omega, by omega⟩, Int32.ofInt_toInt]

@[simp] theorem place?_placeToJson (n : UInt64) : place? (placeToJson n) = some n := by
  have hlt := n.toNat_lt
  rw [placeToJson, place?, if_pos ⟨by omega, by omega⟩, Int.toNat_natCast, UInt64.ofNat_toNat]

@[simp] theorem tag?_ofString (depth : Nat) (s : String) : tag? depth (.ofString s) = some s := rfl

/-! ### Descriptors -/

/-- The keys of a field. -/
def Field.slots (f : Field) : List (String × Option Json) :=
  [("kind", some (.ofString f.kind.tag)), ("label", some (.ofString f.label.tag)),
    ("name", some (.ofString f.name)), ("number", some (.integer f.number.toInt)),
    ("type_name", f.typeName?.map .ofString)]

theorem Field.toJson_eq (f : Field) : f.toJson = .ofEntries (filled f.slots) := by
  simp [toJson, slots, filled, optionalEntry]

theorem undoes_field (f : Field) : Undoes field? f.toJson f := by
  intro depth
  rw [f.toJson_eq]
  cases depth with
  | zero => simp [field?]
  | succ depth =>
      have hvalues : structure? ["name", "number", "kind", "type_name", "label"]
          (.ofEntries (filled f.slots)) = some [some (.ofString f.name),
            some (.integer f.number.toInt), some (.ofString f.kind.tag),
            f.typeName?.map .ofString, some (.ofString f.label.tag)] :=
        structure?_filled (by simp [Field.slots]) (by simp [Field.slots])
      rw [field?, hvalues]
      simp [depth_filled_le, Field.slots]

/-- The keys of a value of an enum. -/
def EnumValue.slots (v : EnumValue) : List (String × Option Json) :=
  [("name", some (.ofString v.name)), ("number", some (.integer v.number.toInt))]

theorem EnumValue.toJson_eq (v : EnumValue) : v.toJson = .ofEntries (filled v.slots) := rfl

theorem undoes_enumValue (v : EnumValue) : Undoes enumValue? v.toJson v := by
  intro depth
  rw [v.toJson_eq]
  cases depth with
  | zero => simp [enumValue?]
  | succ depth =>
      have hvalues : structure? ["name", "number"] (.ofEntries (filled v.slots)) =
          some [some (.ofString v.name), some (.integer v.number.toInt)] :=
        structure?_filled (by simp [EnumValue.slots]) (by simp [EnumValue.slots])
      rw [enumValue?, hvalues]
      simp [depth_filled_le, EnumValue.slots]

/-- The keys of an enum. -/
def Enum.slots (e : Enum) : List (String × Option Json) :=
  [("name", some (.ofString e.name)), ("values", some (.array (e.values.map EnumValue.toJson)))]

theorem Enum.toJson_eq (e : Enum) : e.toJson = .ofEntries (filled e.slots) := rfl

theorem undoes_enum (e : Enum) : Undoes enum? e.toJson e := by
  intro depth
  rw [e.toJson_eq]
  cases depth with
  | zero => simp [enum?]
  | succ depth =>
      have hvalues : structure? ["name", "values"] (.ofEntries (filled e.slots)) =
          some [some (.ofString e.name), some (.array (e.values.map EnumValue.toJson))] :=
        structure?_filled (by simp [Enum.slots]) (by simp [Enum.slots])
      have hlist := Undoes.list e.values (fun v _ => undoes_enumValue v) depth
      rw [enum?, hvalues]
      simp [depth_filled_le, Enum.slots, hlist, bind_guard]

theorem Message.toJsonList_eq (ms : List Message) : toJsonList ms = ms.map toJson := by
  induction ms with
  | nil => rfl
  | cons m ms ih => rw [toJsonList, ih, List.map_cons]

/-- The keys of a message. -/
def Message.slots (m : Message) : List (String × Option Json) :=
  [("fields", some (.array (m.fields.map Field.toJson))), ("name", some (.ofString m.name)),
    ("nested_enums", some (.array (m.enums.map Enum.toJson))),
    ("nested_messages", some (.array (m.messages.map Message.toJson)))]

theorem Message.toJson_eq (m : Message) : m.toJson = .ofEntries (filled m.slots) := by
  obtain ⟨name, fields, messages, enums⟩ := m
  rw [toJson, toJsonList_eq]
  rfl

/-- The messages nested in a message are decoded as any list is. -/
theorem messages?_eq (depth : Nat) (messages : Option Json) :
    messages? depth messages = listOrEmpty? message? depth messages := by
  cases depth <;> rcases messages with _ | _ | _ <;> simp [messages?, listOrEmpty?, list?]

theorem undoes_message (m : Message) : Undoes message? m.toJson m := by
  induction m using Message.nestedInduction with
  | step m ih =>
      intro depth
      rw [m.toJson_eq]
      cases depth with
      | zero => simp [message?]
      | succ depth =>
          have hvalues : structure? ["name", "fields", "nested_messages", "nested_enums"]
              (.ofEntries (filled m.slots)) = some [some (.ofString m.name),
                some (.array (m.fields.map Field.toJson)),
                some (.array (m.messages.map Message.toJson)),
                some (.array (m.enums.map Enum.toJson))] :=
            structure?_filled (by simp [Message.slots]) (by simp [Message.slots])
          have hfields := Undoes.list m.fields (fun f _ => undoes_field f) depth
          have hmessages := Undoes.list m.messages ih depth
          have henums := Undoes.list m.enums (fun e _ => undoes_enum e) depth
          have hdepth : (Json.ofEntries (filled m.slots)).depth ≤ depth + 1 ↔
              (Json.array (m.fields.map Field.toJson)).depth ≤ depth ∧
                (Json.array (m.messages.map Message.toJson)).depth ≤ depth ∧
                  (Json.array (m.enums.map Enum.toJson)).depth ≤ depth := by
            simp [depth_filled_le, Message.slots, and_comm]
          -- A message nests, so it is not by definition what its parts make.
          have heta : Message.mk m.name m.fields m.messages m.enums = m := by cases m; rfl
          rw [message?, hvalues]
          simp [messages?_eq, hfields, hmessages, henums, bind_guard, heta, hdepth, ite_and]

/-- The keys of a file. -/
def File.slots (f : File) : List (String × Option Json) :=
  [("dependencies", some (.array (f.dependencies.map .ofString))),
    ("enums", some (.array (f.enums.map Enum.toJson))),
    ("messages", some (.array (f.messages.map Message.toJson))),
    ("name", some (.ofString f.name)), ("package", f.package?.map .ofString),
    ("public_dependencies", nonempty? (f.publicDependencies.map placeToJson)),
    ("syntax", some (.ofString f.edition)),
    ("weak_dependencies", nonempty? (f.weakDependencies.map placeToJson))]

theorem undoes_string (s : String) : Undoes (fun _ => string?) (.ofString s) s := fun _ => by simp

theorem undoes_place (n : UInt64) : Undoes (fun _ => place?) (placeToJson n) n := fun depth => by
  simp [placeToJson, ← place?_placeToJson n]

theorem File.toJson_eq (f : File) : f.toJson = .ofEntries (filled f.slots) := by
  simp [toJson, slots, filled, nonemptyEntry_eq, Message.toJsonList_eq, optionalEntry]

theorem undoes_file (f : File) : Undoes file? f.toJson f := by
  intro depth
  rw [f.toJson_eq]
  cases depth with
  | zero => simp [file?]
  | succ depth =>
      have hvalues : structure? fileKeys (.ofEntries (filled f.slots)) =
          some [some (.ofString f.name), some (.ofString f.edition), f.package?.map .ofString,
            some (.array (f.dependencies.map .ofString)),
            nonempty? (f.publicDependencies.map placeToJson),
            nonempty? (f.weakDependencies.map placeToJson),
            some (.array (f.messages.map Message.toJson)),
            some (.array (f.enums.map Enum.toJson))] :=
        structure?_filled (by simp [File.slots]) (by simp [File.slots, fileKeys])
      have hdependencies := Undoes.list f.dependencies (fun s _ => undoes_string s) depth
      have hpublic := listOrEmpty?_nonempty? f.publicDependencies (fun n _ => undoes_place n) depth
      have hweak := listOrEmpty?_nonempty? f.weakDependencies (fun n _ => undoes_place n) depth
      have hmessages := Undoes.list f.messages (fun m _ => undoes_message m) depth
      have henums := Undoes.list f.enums (fun e _ => undoes_enum e) depth
      have hdepth : (Json.ofEntries (filled f.slots)).depth ≤ depth + 1 ↔
          (Json.array (f.dependencies.map .ofString)).depth ≤ depth ∧
            (∀ v ∈ nonempty? (f.publicDependencies.map placeToJson), v.depth ≤ depth) ∧
              (∀ v ∈ nonempty? (f.weakDependencies.map placeToJson), v.depth ≤ depth) ∧
                (Json.array (f.messages.map Message.toJson)).depth ≤ depth ∧
                  (Json.array (f.enums.map Enum.toJson)).depth ≤ depth := by
        simp [depth_filled_le, File.slots]
        tauto
      rw [file?, hvalues]
      simp [hdependencies, hpublic, hweak, hmessages, henums, bind_guard, hdepth, ite_and]

open Json (Whole)

/-! ### A set is written without decimals -/

theorem whole_filled {slots : List (String × Option Json)}
    (h : ∀ slot ∈ slots, ∀ v ∈ slot.2, Whole v) : Whole (.ofEntries (filled slots)) := by
  refine .object fun e he => ?_
  obtain ⟨entry, hentry, rfl⟩ := List.mem_map.mp he
  obtain ⟨slot, hslot, hentry⟩ := List.mem_flatMap.mp hentry
  obtain ⟨v, hv, rfl⟩ := List.mem_map.mp hentry
  exact h slot hslot v (by simpa using hv)

@[simp] theorem whole_ofString (s : String) : Whole (.ofString s) := .string _

@[simp] theorem whole_integer (n : Int) : Whole (.integer n) := .integer n

@[simp] theorem whole_array_iff {vs : List Json} : Whole (.array vs) ↔ ∀ v ∈ vs, Whole v :=
  ⟨fun h => by cases h; assumption, .array⟩

@[simp] theorem whole_nonempty?_iff {vs : List Json} :
    (∀ v, nonempty? vs = some v → Whole v) ↔ ∀ v ∈ vs, Whole v := by
  rw [nonempty?]
  split <;> simp_all

@[simp] theorem whole_field (f : Field) : Whole f.toJson := by
  rw [f.toJson_eq]
  exact whole_filled (by simp [Field.slots])

@[simp] theorem whole_enumValue (v : EnumValue) : Whole v.toJson := by
  rw [v.toJson_eq]
  exact whole_filled (by simp [EnumValue.slots])

@[simp] theorem whole_enum (e : Enum) : Whole e.toJson := by
  rw [e.toJson_eq]
  exact whole_filled (by simp [Enum.slots])

@[simp] theorem whole_message (m : Message) : Whole m.toJson := by
  induction m using Message.nestedInduction with
  | step m ih =>
      rw [m.toJson_eq]
      exact whole_filled (by simpa [Message.slots] using ih)

@[simp] theorem whole_file (f : File) : Whole f.toJson := by
  rw [f.toJson_eq]
  exact whole_filled (by simp [File.slots, placeToJson])

end Descriptor

namespace DescriptorSet

open Descriptor

/-- The only key of a set. -/
def slots (s : DescriptorSet) : List (String × Option Json) :=
  [("files", some (.array (s.files.map File.toJson)))]

theorem toJson_eq (s : DescriptorSet) : s.toJson = .ofEntries (filled s.slots) := rfl

/-- The JSON value of a set stands for the set where its depth is allowed, and for
nothing elsewhere. -/
theorem ofJson?_toJson (s : DescriptorSet) :
    ofJson? s.toJson = if s.toJson.depth ≤ maxDepth then some s else none := by
  have hvalues : structure? ["files"] (.ofEntries (filled s.slots)) =
      some [some (.array (s.files.map File.toJson))] :=
    structure?_filled (by simp [slots]) (by simp [slots])
  have hfiles := Undoes.list s.files (fun f _ => undoes_file f) (maxDepth - 1)
  have hdepth : (Json.ofEntries (filled s.slots)).depth ≤ maxDepth ↔
      (Json.array (s.files.map File.toJson)).depth ≤ maxDepth - 1 := by
    simp [slots, maxDepth, depth_filled_le]
  rw [s.toJson_eq, ofJson?, hvalues]
  simp [hfiles, hdepth, bind_guard]

theorem whole_toJson (s : DescriptorSet) : s.toJson.Whole := by
  rw [s.toJson_eq]
  exact whole_filled (by simp [slots])

end DescriptorSet

end Schemata
