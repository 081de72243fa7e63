/-
What a load that fails leaves behind.

An error can come up below any number of open files, when any number of others are finished.
The open files are lost, the root among them; the finished ones stay.  What stays is as good as
what a load that succeeds adds, only that there is no root it is the closure of: each file is
compiled from what the resolver gave for it and stands behind the files it imports.
-/
import Schemata.Proofs.Loading.Closure

namespace Schemata

open Descriptor

namespace Loading

variable {g : ImportGraph} {known : DescriptorSet} {p q : Progress}

/-- A file that cannot be loaded is not added, and neither is a file that is open above it. -/
theorem Runs.exists_adds_of_error {chain : List String} {name : String} {e : Error}
    (h : Runs g known chain (.file name) p (.error e) q) :
    ∃ keys new, Adds g known keys p q new ∧ ∀ f ∈ new, f.name ∉ chain ++ [name] := by
  cases h with
  | tooDeep => exact ⟨[], [], ⟨by simp, .nil _, by simp⟩, by simp⟩
  | refused => exact ⟨[], [], ⟨by simp, .nil _, by simp⟩, by simp⟩
  | stopped _ _ _ himports =>
      obtain ⟨keys, new, hnew, -, hopen⟩ := himports.exists_adds
      exact ⟨keys, new, hnew, hopen⟩

/-- The files `left` are what a load of the root leaves in a set when it fails. -/
structure Remnant (known set : DescriptorSet) (resolver : Resolver) (nesting : Nesting)
    (root : String) (left : List File) : Prop where
  /-- The root is not left. -/
  rootless : root ∉ left.map (·.name)
  /-- No file is left twice. -/
  nodup : (left.map (·.name)).Nodup
  /-- No file is one that was known or in the set. -/
  fresh : ∀ f ∈ left, f.name ∉ known.names ∧ f.name ∉ set.names
  /-- Each file is what the resolver's answer for it compiles to. -/
  compiled : ∀ f ∈ left, ∃ bytes schema, resolver.resolve f.name = .ok bytes ∧
    compileBytes f.name bytes nesting = .ok ⟨schema, f⟩
  /-- What a file depends on was known or in the set, or is left before it. -/
  grounded : ∀ before f after, left = before ++ f :: after → ∀ d ∈ f.dependencies,
    importKey d ∈ known.names ∨ importKey d ∈ set.names ∨ importKey d ∈ before.map (·.name)

/-- What a run adds without the root is a remnant. -/
theorem Adds.remnant {keys : List String} {set : DescriptorSet} {new : List File}
    (h : Adds g known keys ⟨set, []⟩ q new) (hroot : ∀ f ∈ new, f.name ≠ g.root) :
    Remnant known set g.resolver g.nesting g.root new where
  rootless hmem := by
    obtain ⟨f, hf, hname⟩ := List.mem_map.mp hmem
    exact hroot f hf hname
  nodup := h.order.nodup
  fresh f hf := by
    have hfresh := h.order.fresh _ (List.mem_map_of_mem hf)
    rwa [Progress.done, List.mem_append, not_or] at hfresh
  compiled f hf := by
    obtain ⟨⟨schema, file⟩, hc, rfl⟩ := h.compiled f hf
    obtain ⟨bytes, hbytes, hcompile⟩ := ImportGraph.compiled?_eq_some.mp hc
    rw [ImportGraph.content?_of_ne (hroot _ hf)] at hbytes
    exact ⟨bytes, schema, Fallible.toOption_eq_some.mp hbytes, hcompile⟩
  grounded _ _ _ hsplit d hd := by
    have hbefore := h.mem_before hsplit d hd
    rwa [Progress.done, List.mem_append, or_assoc] at hbefore

end Loading

open Loading

/-- **A load that fails leaves the set usable.**  Whatever the error and wherever it comes up,
the files of the set stay as they are, and those that are left behind them are compiled on
their own, named once and grounded in what was there.  Loading into a set is the case of no
known files. -/
theorem loadOver_failure_leaves_remnant (known : DescriptorSet) (resolver : Resolver)
    (nesting : Nesting) (name : String) (bytes : ByteArray) (set : DescriptorSet) {e : Error}
    (h : (loadOver known resolver nesting name bytes set).result = .error e) :
    ∃ left, (loadOver known resolver nesting name bytes set).progress.set.files =
        set.files ++ left ∧
      Remnant known set resolver nesting name left := by
  let g : ImportGraph := ⟨name, bytes, resolver, nesting⟩
  rw [loadOver_eq known g set] at h ⊢
  rcases hload : (loadRoot (context g known) g.root g.bytes).from ⟨set, []⟩ with ⟨r, q⟩
  rw [hload] at h
  obtain rfl : r = .error e := h
  have hnew : g.root ∉ Progress.done known ⟨set, []⟩ := by
    intro hdone
    rw [loadRoot_of_done (context g known) hdone] at hload
    cases hload
  obtain ⟨keys, left, hadds, hopen⟩ := (runs_loadRoot hnew hload).exists_adds_of_error
  refine ⟨left, hadds.files, hadds.remnant fun f hf hroot => ?_⟩
  exact hopen f hf (hroot ▸ List.mem_singleton_self _)

/-- The second import of `d` is missing, when `b` and below it `c` are done; `e` is known. -/
def broken : Table :=
  .ofList [(⟨"b"⟩, importsOf ["e", "./c"]), (⟨"c"⟩, importsOf ["x"]),
    (⟨"d"⟩, importsOf ["c", "gone"])]

/-- Two files below the root are finished when an import of a third is not found. -/
theorem broken_leaves_remnant :
    let known : DescriptorSet := ⟨[.empty "e" "proto3"]⟩
    let set : DescriptorSet := ⟨[.empty "x" "proto3"]⟩
    let load := loadOver known (.ofTable broken) .nested "a" (importsOf ["b", "d", "c"]) set
    load.result = .error (.importNotFound "d" 1 "gone" "file not found in memory: gone") ∧
    load.progress.set.files =
      set.files ++ [importing "c" ["x"], importing "b" ["e", "./c"]] ∧
    ∃ left, load.progress.set.files = set.files ++ left ∧
      Remnant known set (.ofTable broken) .nested "a" left := by
  intro known set load
  have hresult : load.result =
      .error (.importNotFound "d" 1 "gone" "file not found in memory: gone") := by
    decide +kernel
  exact ⟨hresult, by decide +kernel, loadOver_failure_leaves_remnant known (.ofTable broken)
    .nested "a" (importsOf ["b", "d", "c"]) set hresult⟩

end Schemata
