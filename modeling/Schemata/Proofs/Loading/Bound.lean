/-
The bound of a resolver is no limit.

Loading recurses on the length a chain of open files may still have.  For the files of a
finite table the bound is never met, and there are two reasons.  A resolver that knows
finitely many keys runs out of keys, since a chain has none twice.  A resolver over
include directories may know a file by many keys, but only a key that some file writes is
ever looked up, and the files of a table do not write more keys than they have bytes.
-/
import Std.Data.TreeMap.Lemmas
import Schemata.Proofs.Loading.ImportGraph
import Schemata.Proofs.Loading.Size
import Schemata.Proofs.Path.Keys

namespace Schemata

/-! ### Files of a table -/

namespace Table

theorem values_eq (t : Table) : t.files.values = t.files.toList.map Prod.snd := by
  show t.files.foldr (fun _ content rest => content :: rest) [] = _
  rw [Std.TreeMap.foldr_eq_foldr_toList]
  induction t.files.toList with
  | nil => rfl
  | cons file files ih => rw [List.foldr_cons, ih, List.map_cons]

theorem mem_values_of_content? {t : Table} {path : Path} {bytes : ByteArray}
    (h : t.content? path = some bytes) : bytes ∈ t.files.values := by
  rw [values_eq]
  exact List.mem_map.mpr ⟨_, Std.TreeMap.mem_toList_iff_getElem?_eq_some.mpr h, rfl⟩

theorem mem_keys_of_content? {t : Table} {path : Path} {bytes : ByteArray}
    (h : t.content? path = some bytes) : path.normalComponents ∈ t.keys := by
  rw [keys, Std.TreeMap.mem_keys, Std.TreeMap.mem_iff_isSome_getElem?]
  exact Option.isSome_of_eq_some h

theorem content?_of_read {t : Table} {path : Path} {bytes : ByteArray}
    (h : t.read path = .ok bytes) : t.content? path = some bytes := by
  unfold read at h
  split at h
  · cases h
    assumption
  · cases h

/-- The files of a table write no more keys than the table has bytes. -/
theorem length_flatMap_keysOfBytes (t : Table) :
    (t.files.values.flatMap keysOfBytes).length ≤ t.weight := by
  rw [weight]
  induction t.files.values with
  | nil => simp
  | cons bytes rest ih =>
      have hfirst := length_keysOfBytes bytes
      rw [List.flatMap_cons, List.length_append, List.map_cons, List.foldr_cons]
      omega

end Table

/-- The keys that the files of a table are found by, one for each file.  A file whose path is no
text is found by none. -/
def Table.fileKeys (t : Table) : List String :=
  t.keys.map fun cs => (joinSlash (cs.map Component.raw)).lossy

theorem Table.length_fileKeys (t : Table) : t.fileKeys.length = t.size := by
  rw [fileKeys, List.length_map, keys, Std.TreeMap.length_keys, size]

/-- A key of a table's file can be read off the entry it leads to. -/
theorem Resolver.importKey_mem_fileKeys {t : Table} {path : String} {bytes : ByteArray}
    (h : (ofTable t).resolve (importKey path) = .ok bytes) : importKey path ∈ t.fileKeys := by
  have hmem := Table.mem_keys_of_content? (Table.content?_of_read h)
  refine List.mem_map.mpr ⟨_, hmem, ?_⟩
  rw [← importKey_eq_joinSlash, Raw.lossy_ofString]

/-! ### Keys along a chain -/

namespace ImportGraph

variable {g : ImportGraph}

/-- Every entry of a linked list but the first has one that leads to it. -/
theorem exists_of_mem_tail {α : Type} {R : α → α → Prop} {xs : List α} (h : xs.IsChain R) :
    ∀ x ∈ xs.tail, ∃ y ∈ xs, R y x := by
  induction h with
  | nil => simp
  | singleton => simp
  | @cons_cons a b rest hab _ ih =>
      intro x hx
      rcases List.mem_cons.mp hx with rfl | hx
      · exact ⟨a, List.mem_cons_self, hab⟩
      · obtain ⟨y, hy, hyx⟩ := ih x hx
        exact ⟨y, List.mem_cons_of_mem a hy, hyx⟩

/-- A file imports the keys that are written in it. -/
theorem Edge.mem_keysOfBytes {a b : String} {bytes : ByteArray}
    (hbytes : g.content? a = some bytes) (h : g.Edge a b) : b ∈ keysOfBytes bytes := by
  rw [Edge, imports] at h
  split at h
  · rename_i c hc
    obtain ⟨bytes', hbytes', hcompile⟩ := compiled?_eq_some.mp hc
    obtain rfl : bytes = bytes' := Option.some.inj (hbytes.symm.trans hbytes')
    rw [keysOfBytes, schemaOfBytes?_of_compileBytes hcompile]
    exact h
  · cases h

/-- What is imported is a key. -/
theorem Edge.exists_importKey {a b : String} (h : g.Edge a b) :
    ∃ path, importKey path = b := by
  rw [Edge, imports] at h
  split at h
  · obtain ⟨i, -, hi⟩ := List.mem_map.mp h
    exact ⟨i.path, hi⟩
  · cases h

/-- A chain is the root and keys that the resolver finds and that some file of the chain
writes. -/
theorem Chain.exists_cons {names : List String} (h : g.Chain names) :
    ∃ rest, names = g.root :: rest ∧ rest.Nodup ∧ rest.IsChain g.Edge ∧
      ∀ name ∈ rest, (∃ path, importKey path = name) ∧
        ∃ bytes, g.content? name = some bytes ∧ g.resolver.resolve name = .ok bytes := by
  cases names with
  | nil => cases h.head
  | cons root rest =>
      obtain rfl : root = g.root := Option.some.inj h.head
      obtain ⟨hroot, hnodup⟩ := List.nodup_cons.mp h.nodup
      refine ⟨rest, rfl, hnodup, h.linked.tail, ?_⟩
      intro name hname
      obtain ⟨importer, -, hedge⟩ := exists_of_mem_tail h.linked name hname
      obtain ⟨bytes, hbytes⟩ := h.content name (List.mem_cons_of_mem _ hname)
      refine ⟨hedge.exists_importKey, bytes, hbytes, ?_⟩
      rw [content?_of_ne fun he => hroot (he ▸ hname)] at hbytes
      exact Fallible.toOption_eq_some.mp hbytes

end ImportGraph

/-! ### Resolvers over finite tables -/

/-- The resolver looks files up in a finite table: by their keys, or by their places in
include directories. -/
inductive Resolver.OverTable : Resolver → Prop where
  /-- Finitely many keys are found, and the bound leaves room for all of them. -/
  | ofKeys (R : Resolver) (keys : List String)
      (hkeys : ∀ path bytes, R.resolve (importKey path) = .ok bytes → importKey path ∈ keys)
      (hdepth : keys.length < R.depth) : R.OverTable
  | ofTable (t : Table) : (Resolver.ofTable t).OverTable
  | ofDirectories (t : Table) (dirs : List Path) :
      (Resolver.ofDirectories t.source dirs).OverTable

namespace ImportGraph.Chain

variable {g : ImportGraph} {names : List String}

theorem length_le_of_keys {keys : List String} (h : g.Chain names)
    (hkeys : ∀ path bytes, g.resolver.resolve (importKey path) = .ok bytes →
      importKey path ∈ keys) : names.length ≤ keys.length + 1 := by
  obtain ⟨rest, rfl, hnodup, -, hrest⟩ := h.exists_cons
  have hsub : rest ⊆ keys := by
    intro name hname
    obtain ⟨⟨path, rfl⟩, bytes, -, hbytes⟩ := hrest name hname
    exact hkeys path bytes hbytes
  have hle := hnodup.length_le_of_subset hsub
  rw [List.length_cons]
  omega

/-- A chain has room for the root and for each file of a table once. -/
theorem length_le_ofTable {t : Table} (h : g.Chain names) (hg : g.resolver = .ofTable t) :
    names.length ≤ t.size + 1 := by
  have hle := h.length_le_of_keys fun path bytes hbytes =>
    Resolver.importKey_mem_fileKeys (hg ▸ hbytes)
  rwa [t.length_fileKeys] at hle

/-- From the third file of a chain on, each is a key written in a file of the table. -/
theorem length_le_ofDirectories {t : Table} {dirs : List Path} (h : g.Chain names)
    (hg : g.resolver = .ofDirectories t.source dirs) : names.length ≤ t.weight + 2 := by
  obtain ⟨rest, rfl, hnodup, hlinked, hrest⟩ := h.exists_cons
  have hvalues : ∀ name ∈ rest, ∃ bytes ∈ t.files.values, g.content? name = some bytes := by
    intro name hname
    obtain ⟨-, bytes, hcontent, hbytes⟩ := hrest name hname
    rw [hg, Resolver.ofDirectories] at hbytes
    refine ⟨bytes, ?_, hcontent⟩
    dsimp only at hbytes
    split at hbytes
    · exact Table.mem_values_of_content? (Table.content?_of_read hbytes)
    · cases hbytes
  have hsub : rest.tail ⊆ t.files.values.flatMap keysOfBytes := by
    intro name hname
    obtain ⟨importer, himporter, hedge⟩ := exists_of_mem_tail hlinked name hname
    obtain ⟨bytes, hbytes, hcontent⟩ := hvalues importer himporter
    exact List.mem_flatMap.mpr ⟨bytes, hbytes, hedge.mem_keysOfBytes hcontent⟩
  have hle := (hnodup.sublist (List.tail_sublist rest)).length_le_of_subset hsub
  have hweight := t.length_flatMap_keysOfBytes
  rw [List.length_tail] at hle
  rw [List.length_cons]
  omega

/-- **No chain of files is longer than the bound of a resolver over a finite table.** -/
theorem length_le_depth (h : g.Chain names) (hover : g.resolver.OverTable) :
    names.length ≤ g.resolver.depth := by
  generalize hg : g.resolver = R at hover
  cases hover with
  | ofKeys R keys hkeys hdepth =>
      have hle := h.length_le_of_keys (hg ▸ hkeys)
      omega
  | ofTable t => exact h.length_le_ofTable hg
  | ofDirectories t dirs => exact h.length_le_ofDirectories hg

end ImportGraph.Chain

end Schemata
