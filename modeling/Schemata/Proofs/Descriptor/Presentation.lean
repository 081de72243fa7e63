/-
The presentations of a descriptor set.

A set is written in one way and decoded from many: the keys of an object may stand in any order
and among keys that mean nothing, what a key means when it is left out need not be written, and a
tag may be the key of an object.  `Presents` says which values these are, for each form a value may
have, without decoding them.

A decoder enters the decoded part of a value only.  How deep that part nests is told level by
level, the way it is entered.
-/
import Mathlib.Data.List.Nodup
import Schemata.Proofs.Descriptor.Json

namespace Schemata

namespace Descriptor

/-! ### Forms -/

/-- The structures of a descriptor set. -/
inductive Structure where
  | set
  | file
  | message
  | field
  | enum
  | enumValue

/-- What a value is to a decoder. -/
inductive Form where
  /-- Decoded as it stands: a string, a number or null. -/
  | plain
  | tag
  | list (element : Form)
  | object (s : Structure)

/-- A key of a structure, and what it means to leave it out if it may be left out. -/
structure Key where
  name : String
  form : Form
  default? : Option Json

namespace Key

/-- A key that may not be left out. -/
def required (name : String) (form : Form) : Key := ⟨name, form, none⟩

/-- A key for a string or null; to leave it out means null. -/
def nullable (name : String) : Key := ⟨name, .plain, some .null⟩

/-- A key for a list; to leave it out means an empty one. -/
def listed (name : String) (element : Form) : Key := ⟨name, .list element, some (.array [])⟩

end Key

/-- The keys of a structure, in the order of declaration. -/
def Structure.keys : Structure → List Key
  | set => [.required "files" (.list (.object file))]
  | file => [.required "name" .plain, .required "syntax" .plain, .nullable "package",
      .listed "dependencies" .plain, .listed "public_dependencies" .plain,
      .listed "weak_dependencies" .plain, .listed "messages" (.object message),
      .listed "enums" (.object enum)]
  | message => [.required "name" .plain, .listed "fields" (.object field),
      .listed "nested_messages" (.object message), .listed "nested_enums" (.object enum)]
  | field => [.required "name" .plain, .required "number" .plain, .required "kind" .tag,
      .nullable "type_name", ⟨"label", .tag, some (.ofString Label.optional.tag)⟩]
  | enum => [.required "name" .plain, .listed "values" (.object enumValue)]
  | enumValue => [.required "name" .plain, .required "number" .plain]

theorem Structure.keys_nodup (s : Structure) : (s.keys.map Key.name).Nodup := by
  cases s <;> decide

/-! ### Presentations -/

/-- What stands under a key of an object, if anything does, before and after. -/
structure Slot where
  key : Key
  before? : Option Json
  after? : Option Json

mutual

/-- The second value presents the first. -/
inductive Presents : Form → Json → Json → Prop
  | plain (v : Json) : Presents .plain v v
  | tag (t : String) : Presents .tag (.ofString t) (.ofString t)
  | tagObject (t : String) : Presents .tag (.ofString t) (.ofEntries [(t, .null)])
  | list {form : Form} {vs ws : List Json} (hlength : vs.length = ws.length)
      (h : ∀ p ∈ vs.zip ws, Presents form p.1 p.2) : Presents (.list form) (.array vs) (.array ws)
  /-- The known keys are presented one by one, unknown ones are inserted, and the order is lost. -/
  | object {s : Structure} {before after inserted : List (String × Json)} {slots : List Slot}
      (hkeys : slots.map Slot.key = s.keys)
      (hslots : ∀ slot ∈ slots, PresentsEntry slot.key slot.before? slot.after?)
      (hinserted : ∀ e ∈ inserted, e.1 ∉ s.keys.map Key.name)
      (hbefore : before.Perm (filled (slots.map fun slot => (slot.key.name, slot.before?))))
      (hafter : after.Perm
        (filled (slots.map fun slot => (slot.key.name, slot.after?)) ++ inserted)) :
      Presents (.object s) (.ofEntries before) (.ofEntries after)

/-- What stands under the key afterwards presents what stood there before. -/
inductive PresentsEntry : Key → Option Json → Option Json → Prop
  | kept {key : Key} {v w : Json} (h : Presents key.form v w) :
      PresentsEntry key (some v) (some w)
  | leftOut {key : Key} {v : Json} (hdefault : key.default? = some v) :
      PresentsEntry key (some v) none
  | absent (key : Key) : PresentsEntry key none none
  | writtenOut {key : Key} {v w : Json} (hdefault : key.default? = some v)
      (h : Presents key.form v w) : PresentsEntry key none (some w)

end

mutual

/-- The value without the keys that mean nothing where they stand. -/
def decodedPart : Form → Json → Json
  | .list form, .array vs => .array (decodedElements form vs)
  | .object s, .object entries => .object (decodedEntries s entries)
  | _, v => v

/-- The elements of a list without the keys that mean nothing. -/
def decodedElements (form : Form) : List Json → List Json
  | [] => []
  | v :: vs => decodedPart form v :: decodedElements form vs

/-- The entries of a structure with keys that mean something. -/
def decodedEntries (s : Structure) :
    List (Option String × Json) → List (Option String × Json)
  | [] => []
  | (name, v) :: entries =>
    match s.keys.find? fun key => some key.name = name with
    | some key => (name, decodedPart key.form v) :: decodedEntries s entries
    | none => decodedEntries s entries

end

/-! ### Depth -/

theorem decodedElements_eq (form : Form) (vs : List Json) :
    decodedElements form vs = vs.map (decodedPart form) := by
  induction vs with
  | nil => rfl
  | cons v vs ih => rw [decodedElements, ih, List.map_cons]

theorem depth_element_le {form : Form} {vs : List Json} {n : Nat}
    (h : (decodedPart (.list form) (.array vs)).depth ≤ n + 1) :
    ∀ v ∈ vs, (decodedPart form v).depth ≤ n := by
  rw [decodedPart, decodedElements_eq, Json.depth_array_le, List.forall_mem_map] at h
  exact h

theorem decodedEntries_eq (s : Structure) (entries : List (Option String × Json)) :
    decodedEntries s entries = entries.filterMap fun e =>
      (s.keys.find? fun key => some key.name = e.1).map fun key =>
        (e.1, decodedPart key.form e.2) := by
  induction entries with
  | nil => rfl
  | cons e entries ih =>
      obtain ⟨name, v⟩ := e
      rw [decodedEntries, List.filterMap_cons, ih]
      cases s.keys.find? fun key => some key.name = name <;> rfl

/-- A key is found by its name. -/
theorem Structure.find?_key {s : Structure} {key : Key} (hkey : key ∈ s.keys) :
    (s.keys.find? fun k => some k.name = some key.name) = some key := by
  have hsome : (s.keys.find? fun k => some k.name = some key.name).isSome = true :=
    List.find?_isSome.mpr ⟨key, hkey, by simp⟩
  obtain ⟨k, hk⟩ := Option.isSome_iff_exists.mp hsome
  have hname : k.name = key.name := by simpa using List.find?_some hk
  rw [hk, List.inj_on_of_nodup_map s.keys_nodup (List.mem_of_find?_eq_some hk) hkey hname]

/-- What stands under a key of a structure is one level less deep than the structure. -/
theorem depth_entry_le {s : Structure} {entries : List (String × Json)} {n : Nat}
    (h : (decodedPart (.object s) (.ofEntries entries)).depth ≤ n + 1) {key : Key} {v : Json}
    (hkey : key ∈ s.keys) (hv : (key.name, v) ∈ entries) : (decodedPart key.form v).depth ≤ n := by
  have hmem : (some key.name, decodedPart key.form v) ∈
      decodedEntries s (entries.map fun e => (some e.1, e.2)) := by
    rw [decodedEntries_eq, List.mem_filterMap]
    exact ⟨(some key.name, v), List.mem_map_of_mem hv, by rw [s.find?_key hkey, Option.map_some]⟩
  rw [Json.ofEntries, decodedPart, Json.depth, Nat.succ_le_succ_iff, Json.depthOfEntries_le] at h
  exact h _ hmem

end Descriptor

end Schemata
