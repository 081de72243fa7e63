/-
Merging is a union by name, and the first of a name wins.

A merge takes the files of the second set one by one, and each is held against a set that the
merge itself has made longer.  What it comes to can be told from the two sets alone: behind the
files of the first set stand those of the second whose names are new, the first of each name.
Everything else follows the same loop: a file that is added on the right of a merge is added
behind it, so merges may be grouped as one likes, and collecting files is merging them into
nothing.
-/
import Schemata.Proofs.Descriptor.Set

namespace Schemata.DescriptorSet

open Descriptor

/-- The files whose names are not taken, the first of each name, in order. -/
def newFiles (taken : List String) (fs : List File) : List File :=
  (fs.filter fun f => f.name ∉ taken).eraseDupsBy fun f g => f.name = g.name

@[simp] theorem newFiles_nil (taken : List String) : newFiles taken [] = [] := by
  simp [newFiles]

section

variable {taken : List String} {f : File} {fs : List File}

theorem newFiles_cons_of_mem (h : f.name ∈ taken) :
    newFiles taken (f :: fs) = newFiles taken fs := by
  rw [newFiles, List.filter_cons_of_neg (by simpa using h), newFiles]

/-- A new file takes its name. -/
theorem newFiles_cons_of_notMem (h : f.name ∉ taken) :
    newFiles taken (f :: fs) = f :: newFiles (taken ++ [f.name]) fs := by
  rw [newFiles, List.filter_cons_of_pos (by simpa using h), List.eraseDupsBy_cons,
    List.filter_filter, newFiles]
  congr 2
  refine List.filter_congr fun g _ => ?_
  by_cases hname : g.name = f.name <;> simp [hname]

end

variable {s t : DescriptorSet}

/-- **Adding files puts the new ones behind those there.** -/
theorem files_foldl_insert (s : DescriptorSet) (fs : List File) :
    (fs.foldl insert s).files = s.files ++ newFiles s.names fs := by
  induction fs generalizing s with
  | nil => simp
  | cons f fs ih =>
      rw [List.foldl_cons, ih]
      by_cases hmem : f.name ∈ s.names
      · rw [insert_of_mem hmem, newFiles_cons_of_mem hmem]
      · rw [insert_of_notMem hmem, newFiles_cons_of_notMem hmem, names_push, push,
          List.append_assoc, List.singleton_append]

/-- A name is looked up in the set first, and then in the file that was added. -/
theorem file?_insert (s : DescriptorSet) (f : File) (name : String) :
    (s.insert f).file? name = (s.file? name).or ([f].find? (·.name = name)) := by
  by_cases hmem : f.name ∈ s.names
  · rw [insert_of_mem hmem]
    by_cases hname : f.name = name
    · -- The set has a file of this name already.
      have hfound : (s.file? name).isSome = true := by
        obtain ⟨g, hg, hgname⟩ := List.mem_map.mp hmem
        exact List.find?_isSome.mpr ⟨g, hg, by simpa using hgname.trans hname⟩
      obtain ⟨g, hg⟩ := Option.isSome_iff_exists.mp hfound
      rw [hg, Option.some_or]
    · simp [hname]
  · rw [insert_of_notMem hmem, file?, push, List.find?_append, file?]

theorem file?_foldl_insert (s : DescriptorSet) (fs : List File) (name : String) :
    (fs.foldl insert s).file? name = (s.file? name).or (fs.find? (·.name = name)) := by
  induction fs generalizing s with
  | nil => simp
  | cons f fs ih =>
      rw [List.foldl_cons, ih, file?_insert, Option.or_assoc, ← List.find?_append,
        List.singleton_append]

/-- What is merged in behind a merge may be merged in before it. -/
theorem merge_merge (a b c : DescriptorSet) : (a.merge b).merge c = a.merge (b.merge c) := by
  obtain ⟨fs⟩ := c
  show fs.foldl insert (a.merge b) = a.merge (fs.foldl insert b)
  induction fs generalizing b with
  | nil => rfl
  | cons f fs ih => rw [List.foldl_cons, List.foldl_cons, ← ih, merge_insert]

/-- Files are collected part by part. -/
theorem ofFiles_append (fs gs : List File) :
    ofFiles (fs ++ gs) = (ofFiles fs).merge (ofFiles gs) := by
  calc ofFiles (fs ++ gs)
      = (ofFiles fs).merge ⟨gs⟩ := List.foldl_append
    _ = ((ofFiles fs).merge empty).merge ⟨gs⟩ := rfl
    _ = (ofFiles fs).merge (ofFiles gs) := merge_merge _ _ _

/-- **Merging is a union in which the first wins.**  Merges may be grouped as one likes; a name is
looked up in the first set and then in the second; the files of the first set stay in front, and
behind them come the new ones of the second, the first of each name; a set merged into itself is
as it was; and collecting files is merging them into the empty set, part by part. -/
theorem merge_first_wins (a b c : DescriptorSet) :
    (a.merge b).merge c = a.merge (b.merge c) ∧
    (∀ name, (a.merge b).file? name = (a.file? name).or (b.file? name)) ∧
    (a.merge b).files = a.files ++ newFiles a.names b.files ∧
    a.merge a = a ∧
    (∀ fs, ofFiles fs = empty.merge ⟨fs⟩) ∧
    ∀ fs gs, ofFiles (fs ++ gs) = (ofFiles fs).merge (ofFiles gs) := by
  refine ⟨merge_merge a b c, file?_foldl_insert a b.files, files_foldl_insert a b.files, ?_,
    fun fs => rfl, ofFiles_append⟩
  exact foldl_insert_of_mem fun f hf => List.mem_map_of_mem hf

/-- Both sets name a file twice, and one name is in both. -/
example :
    let a : DescriptorSet := ⟨[.empty "x" "1", .empty "x" "2"]⟩
    let b : DescriptorSet := ⟨[.empty "y" "3", .empty "x" "4", .empty "y" "5"]⟩
    (a.merge b).files = [.empty "x" "1", .empty "x" "2", .empty "y" "3"] ∧
      (b.merge a).files = b.files := by
  decide +kernel

end Schemata.DescriptorSet
