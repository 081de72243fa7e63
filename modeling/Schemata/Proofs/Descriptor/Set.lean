/-
Sets of files as lists.

Adding a file either changes nothing or puts the file at the end, and which of the two
happens depends on its name alone.
-/
import Mathlib.Data.List.Infix
import Mathlib.Data.List.Nodup
import Schemata.Descriptor.Set

namespace Schemata.DescriptorSet

open Descriptor

variable {s t : DescriptorSet} {f : File}

theorem insert_of_mem (h : f.name ∈ s.names) : s.insert f = s := by
  rw [insert, if_pos ((contains_iff s f.name).mpr h)]

theorem insert_of_notMem (h : f.name ∉ s.names) : s.insert f = s.push f := by
  rw [insert, if_neg (mt (contains_iff s f.name).mp h)]

/-- Adding a file names no file twice. -/
theorem nodup_insert (h : s.names.Nodup) (f : File) : (s.insert f).names.Nodup := by
  by_cases hmem : f.name ∈ s.names
  · rwa [insert_of_mem hmem]
  · rw [insert_of_notMem hmem, names_push]
    refine List.nodup_append.mpr ⟨h, by simp, ?_⟩
    rintro x hx y hy rfl
    exact hmem (List.mem_singleton.mp hy ▸ hx)

/-- Adding files names no file twice. -/
theorem nodup_foldl_insert (h : s.names.Nodup) (fs : List File) :
    (fs.foldl insert s).names.Nodup := by
  induction fs generalizing s with
  | nil => exact h
  | cons f fs ih => exact ih (nodup_insert h f)

/-- A file is added behind those there, if at all. -/
theorem files_prefix_insert (s : DescriptorSet) (f : File) : s.files <+: (s.insert f).files := by
  by_cases hmem : f.name ∈ s.names
  · rw [insert_of_mem hmem]
  · rw [insert_of_notMem hmem]
    exact List.prefix_append _ _

/-- Files are added behind those there. -/
theorem files_prefix_foldl_insert (s : DescriptorSet) (fs : List File) :
    s.files <+: (fs.foldl insert s).files := by
  induction fs generalizing s with
  | nil => exact List.prefix_rfl
  | cons f fs ih => exact (files_prefix_insert s f).trans (ih (s.insert f))

theorem mem_insert_of_mem {g : File} (h : g ∈ s.files) : g ∈ (s.insert f).files := by
  by_cases hmem : f.name ∈ s.names
  · rwa [insert_of_mem hmem]
  · rw [insert_of_notMem hmem]
    exact List.mem_append_left _ h

theorem mem_of_mem_insert {g : File} (h : g ∈ (s.insert f).files) : g ∈ s.files ∨ g = f := by
  by_cases hmem : f.name ∈ s.names
  · rw [insert_of_mem hmem] at h
    exact .inl h
  · rw [insert_of_notMem hmem] at h
    exact (List.mem_append.mp h).imp_right List.mem_singleton.mp

theorem mem_names_insert {name : String} :
    name ∈ (s.insert f).names ↔ name ∈ s.names ∨ name = f.name := by
  by_cases hmem : f.name ∈ s.names
  · rw [insert_of_mem hmem]
    exact ⟨.inl, fun h => h.elim id fun heq => heq ▸ hmem⟩
  · rw [insert_of_notMem hmem, names_push, List.mem_append, List.mem_singleton]

theorem mem_names_foldl_insert {name : String} {fs : List File} :
    name ∈ (fs.foldl insert s).names ↔ name ∈ s.names ∨ name ∈ fs.map (·.name) := by
  induction fs generalizing s with
  | nil => simp
  | cons f fs ih =>
      rw [List.foldl_cons, ih, mem_names_insert, List.map_cons, List.mem_cons, or_assoc]

/-- A merge has the names of both sets. -/
theorem mem_names_merge {name : String} :
    name ∈ (s.merge t).names ↔ name ∈ s.names ∨ name ∈ t.names :=
  mem_names_foldl_insert

/-- A file is added before a merge or after it. -/
theorem merge_insert : s.merge (t.insert f) = (s.merge t).insert f := by
  by_cases hmem : f.name ∈ t.names
  · rw [insert_of_mem hmem, insert_of_mem (mem_names_merge.mpr (.inr hmem))]
  · rw [insert_of_notMem hmem, merge, push, List.foldl_append]
    rfl

/-- Files whose names are taken change nothing. -/
theorem foldl_insert_of_mem {fs : List File} (h : ∀ f ∈ fs, f.name ∈ s.names) :
    fs.foldl insert s = s := by
  induction fs with
  | nil => rfl
  | cons f fs ih =>
      rw [List.foldl_cons, insert_of_mem (h f List.mem_cons_self)]
      exact ih fun g hg => h g (List.mem_cons_of_mem _ hg)

theorem merge_append_of_mem {fs : List File} (h : ∀ f ∈ fs, f.name ∈ s.names) :
    s.merge ⟨t.files ++ fs⟩ = s.merge t := by
  rw [merge, List.foldl_append]
  exact foldl_insert_of_mem fun f hf => mem_names_merge.mpr (.inl (h f hf))

/-- A name that no two files share picks out its file. -/
theorem filter_name (h : s.names.Nodup) (hf : f ∈ s.files) :
    s.files.filter (·.name = f.name) = [f] := by
  have honly : ∀ g ∈ s.files, decide (g.name = f.name) = (g == f) := by
    intro g hg
    rw [Bool.eq_iff_iff, decide_eq_true_eq, beq_iff_eq]
    exact ⟨List.inj_on_of_nodup_map h hg hf, congrArg _⟩
  have hcount : s.files.count f = 1 := List.nodup_iff_count_eq_one.mp (List.Nodup.of_map _ h) f hf
  rw [List.filter_congr honly, List.filter_beq, hcount]
  rfl

/-- Merging in files of new names puts all of them at the end. -/
theorem merge_of_disjoint (hnodup : t.names.Nodup) (hnew : ∀ name ∈ t.names, name ∉ s.names) :
    s.merge t = ⟨s.files ++ t.files⟩ := by
  obtain ⟨files⟩ := t
  rw [merge]
  induction files generalizing s with
  | nil => simp
  | cons f fs ih =>
      obtain ⟨hf, hfs⟩ := List.nodup_cons.mp hnodup
      have hrest : ∀ name ∈ names ⟨fs⟩, name ∉ (s.push f).names := by
        intro name hname hmem
        rw [names_push] at hmem
        rcases List.mem_append.mp hmem with hmem | hmem
        · exact hnew name (List.mem_cons_of_mem _ hname) hmem
        · rw [List.mem_singleton.mp hmem] at hname
          exact hf hname
      rw [List.foldl_cons, insert_of_notMem (hnew f.name List.mem_cons_self), ih hfs hrest]
      simp [push]

end Schemata.DescriptorSet
