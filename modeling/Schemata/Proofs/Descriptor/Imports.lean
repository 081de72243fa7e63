/-
Imports within a set.

A set is closed if each of its files stands behind the files it imports.  Such a set needs
nothing from outside, and neither does any of its beginnings; files go on at its end as long
as they bring along what they import.
-/
import Schemata.Descriptor.Set
import Schemata.Path.Segments

namespace Schemata.DescriptorSet

open Descriptor

variable {s : DescriptorSet}

/-- A file of the set named `a` imports `b`. -/
def Imports (s : DescriptorSet) (a b : String) : Prop :=
  ∃ f ∈ s.files, f.name = a ∧ b ∈ f.dependencies.map importKey

/-- A set that goes on keeps its imports. -/
theorem Imports.mono {t : DescriptorSet} (h : s.files <+: t.files) {a b : String}
    (hab : s.Imports a b) : t.Imports a b := by
  obtain ⟨f, hf, hname, hdep⟩ := hab
  exact ⟨f, h.subset hf, hname, hdep⟩

/-- The files `new` stand behind the names `done` and behind the files they import, each of
them. -/
def Behind (done : List String) (new : List File) : Prop :=
  ∀ before f after, new = before ++ f :: after →
    ∀ d ∈ f.dependencies, importKey d ∈ done ∨ importKey d ∈ before.map (·.name)

/-- Each file of the set stands behind the files it imports. -/
def ImportClosed (s : DescriptorSet) : Prop :=
  ∀ before f after, s.files = before ++ f :: after →
    ∀ d ∈ f.dependencies, importKey d ∈ before.map (·.name)

theorem importClosed_empty : empty.ImportClosed := by
  intro before f after h
  simp [empty] at h

/-- A closed set goes on with files that bring along what they import. -/
theorem ImportClosed.append {new : List File} (h : s.ImportClosed) (hnew : Behind s.names new) :
    ImportClosed ⟨s.files ++ new⟩ := by
  intro before f after hsplit d hd
  rcases List.append_eq_append_iff.mp hsplit with ⟨rest, rfl, hrest⟩ | ⟨rest, hfiles, hrest⟩
  · rw [List.map_append, List.mem_append]
    exact hnew rest f after hrest d hd
  · cases rest with
    | nil =>
        rw [List.append_nil] at hfiles
        exact hfiles ▸ (hnew [] f after hrest.symm d hd).resolve_right (by simp)
    | cons g rest =>
        obtain ⟨rfl, -⟩ := List.cons.inj hrest
        exact h before f rest hfiles d hd

/-- What a file of a closed set imports is in the set. -/
theorem ImportClosed.mem_names (h : s.ImportClosed) {f : File} (hf : f ∈ s.files) {key : String}
    (hkey : key ∈ f.dependencies.map importKey) : key ∈ s.names := by
  obtain ⟨before, after, hsplit⟩ := List.append_of_mem hf
  obtain ⟨d, hd, rfl⟩ := List.mem_map.mp hkey
  have hmem := h before f after hsplit d hd
  rw [names, hsplit, List.map_append]
  exact List.mem_append_left _ hmem

end Schemata.DescriptorSet
