/-
Import cycles.

A load fails for one of four reasons, and `Cause` says what each amounts to in the import
graph.  Where every file the root leads to is there and compiles, and the bound of the
resolver is no limit, a cycle is the only reason left; and a load that succeeds leaves the
files in an order that no cycle has.  So a load tells exactly whether the root leads to a
cycle, and when it does it shows one.
-/
import Schemata.Proofs.Loading.Bound
import Schemata.Proofs.Loading.Closure

namespace Schemata

open Relation Loading

/-! ### Cycles of the import graph -/

namespace ImportGraph

/-- The root leads to a file that leads back to itself. -/
def Cyclic (g : ImportGraph) : Prop := ∃ name, g.Reachable name ∧ TransGen g.Edge name name

/-- Files in a row from the root, each of which imports the next one, while the last one
imports `path`, which is one of them. -/
structure IsCycle (g : ImportGraph) (path : String) (chain : List String) : Prop where
  head : chain.head? = some g.root
  nodup : chain.Nodup
  linked : chain.IsChain g.Edge
  closes : ∃ last, chain.getLast? = some last ∧ g.Edge last path
  mem : path ∈ chain

variable {g : ImportGraph}

theorem Chain.isCycle {path last : String} {chain : List String} (h : g.Chain chain)
    (hlast : chain.getLast? = some last) (hedge : g.Edge last path) (hmem : path ∈ chain) :
    g.IsCycle path chain :=
  ⟨h.head, h.nodup, h.linked, ⟨last, hlast, hedge⟩, hmem⟩

/-- The root leads to files of a closed set only. -/
theorem compiled_of_closed (names : List String) (hroot : g.root ∈ names)
    (hclosed : ∀ name ∈ names, (g.compiled? name).isSome ∧ ∀ key ∈ g.imports name, key ∈ names) :
    ∀ name, g.Reachable name → (g.compiled? name).isSome := by
  intro name hreach
  have hmem : name ∈ names := by
    induction hreach with
    | refl => exact hroot
    | tail _ hedge ih => exact (hclosed _ ih).2 _ hedge
  exact (hclosed name hmem).1

/-- **A cycle that is shown is one.** -/
theorem IsCycle.cyclic {path : String} {chain : List String} (h : g.IsCycle path chain) :
    g.Cyclic := by
  obtain ⟨last, hlast, hedge⟩ := h.closes
  refine ⟨path, reflTransGen_of_isChain h.linked h.head path h.mem, ?_⟩
  -- The part of the row from `path` on is the cycle.
  obtain ⟨before, after, rfl⟩ := List.append_of_mem h.mem
  have hlinked := (List.isChain_append.mp h.linked).2.1
  have hmem : last ∈ path :: after := by
    rw [List.getLast?_append_of_ne_nil _ (by simp)] at hlast
    exact List.mem_of_getLast? hlast
  exact .tail' (reflTransGen_of_isChain hlinked rfl last hmem) hedge

end ImportGraph

/-! ### Why a load fails -/

namespace Loading

/-- What an error of a load says about the import graph. -/
inductive Cause (g : ImportGraph) : Error → Prop where
  /-- More files would be open than the bound of the resolver allows. -/
  | tooDeep {names : List String} {name : String} (hopen : g.Chain names)
      (hlong : g.resolver.depth < names.length) : Cause g (.importDepth name)
  /-- A file the root leads to does not compile on its own. -/
  | refused {name : String} {bytes : ByteArray} {e : Error} (hreach : g.Reachable name)
      (hbytes : g.content? name = some bytes)
      (he : compileBytes name bytes g.nesting = .error e) : Cause g e
  /-- A file the root leads to imports a key for which nothing is found. -/
  | missing {importer : String} {i : ImportDecl} {fault : AccessFault}
      (hreach : g.Reachable importer) (hedge : g.Edge importer (importKey i.path))
      (hother : importKey i.path ≠ g.root)
      (hfault : g.resolver.resolve (importKey i.path) = .error fault) :
      Cause g (.importNotFound importer i.line i.path fault.message)
  /-- The root leads to a cycle. -/
  | cycle {path : String} {chain : List String} (hcycle : g.IsCycle path chain) :
      Cause g (.importCycle path chain)

variable {g : ImportGraph} {known : DescriptorSet} {p q : Progress}

theorem Ready.reachable {chain : List String} {name : String}
    (h : Ready g known chain name p) : g.Reachable name :=
  h.opens.reachable name (by simp)

/-- **A run that fails has a cause.** -/
theorem Runs.cause {chain : List String} {task : Task} {r : Except Error Unit} {e : Error}
    (h : Runs g known chain task p r q) (hr : r = .error e) : Cause g e := by
  induction h with
  | nil => cases hr
  | finished => cases hr
  | tooDeep hready hdepth =>
      cases hr
      refine .tooDeep hready.opens ?_
      rw [List.length_append, List.length_singleton]
      omega
  | refused hready _ hbytes he =>
      cases hr
      exact .refused hready.reachable hbytes he
  | stopped _ _ _ _ ih => exact ih hr
  | cycle hmeets hopen =>
      cases hr
      exact .cycle (hmeets.opened.isCycle hmeets.last hmeets.edge hopen)
  | skip _ _ _ ih => exact ih hr
  | missing hmeets hopen _ hfault =>
      cases hr
      have hreach := hmeets.opened.reachable _ (List.mem_of_getLast? hmeets.last)
      refine .missing hreach hmeets.edge (fun hroot => hopen ?_) hfault
      rw [hroot]
      exact hmeets.opened.root_mem
  | failed _ ih => exact ih hr
  | loaded _ _ _ _ ihLater => exact ihLater hr

/-- Where all files are found and compile and the bound is no limit, only a cycle can be
the cause. -/
theorem Cause.isCycle {e : Error} (h : Cause g e) (hover : g.resolver.OverTable)
    (hcompiles : ∀ name, g.Reachable name → (g.compiled? name).isSome) :
    ∃ path chain, e = .importCycle path chain ∧ g.IsCycle path chain := by
  cases h with
  | tooDeep hopen hlong => exact absurd (hopen.length_le_depth hover) (by omega)
  | refused hreach hbytes he =>
      obtain ⟨c, hc⟩ := Option.isSome_iff_exists.mp (hcompiles _ hreach)
      obtain ⟨bytes', hbytes', hcompile⟩ := ImportGraph.compiled?_eq_some.mp hc
      rw [hbytes] at hbytes'
      cases hbytes'
      rw [he] at hcompile
      cases hcompile
  | missing hreach hedge hother hfault =>
      obtain ⟨c, hc⟩ := Option.isSome_iff_exists.mp (hcompiles _ (hreach.tail hedge))
      obtain ⟨bytes, hbytes, -⟩ := ImportGraph.compiled?_eq_some.mp hc
      rw [ImportGraph.content?_of_ne hother, hfault] at hbytes
      cases hbytes
  | cycle hcycle => exact ⟨_, _, rfl, hcycle⟩

/-- **What a load adds has no cycle.** -/
theorem Adds.not_cyclic {new : List Descriptor.File} (hdone : p.done known = [])
    (h : Adds g known [g.root] p q new) : ¬ g.Cyclic := by
  rintro ⟨name, hreach, hcycle⟩
  have hstep : Step g.imports (p.done known) = g.Edge := by
    ext a b
    simp [Step, ImportGraph.Edge, hdone]
  have hroot : g.root ∉ p.done known := by simp [hdone]
  have hmem := (h.mem_iff hroot name).mpr (hstep ▸ hreach)
  exact h.order.grounded.not_transGen hmem (hstep ▸ hcycle)

end Loading

/-! ### Cycles are detected -/

/-- **Cycle detection is exact.**  Over a finite table, where every file the root leads to
is found and compiles on its own, a load succeeds if and only if the root leads to no
cycle, and it fails by showing a cycle otherwise. -/
theorem loadInto_detects_cycles (g : ImportGraph) (hover : g.resolver.OverTable)
    (hcompiles : ∀ name, g.Reachable name → (g.compiled? name).isSome) :
    ((loadInto g.resolver g.nesting g.root g.bytes .empty).result = .ok () ↔ ¬ g.Cyclic) ∧
    (g.Cyclic → ∃ path chain,
      (loadInto g.resolver g.nesting g.root g.bytes .empty).result =
        .error (.importCycle path chain) ∧ g.IsCycle path chain) := by
  have hnew : g.root ∉ Progress.done .empty ⟨.empty, []⟩ := by
    simp [Progress.done, DescriptorSet.names, DescriptorSet.empty]
  rw [loadInto, loadOver_eq .empty g .empty]
  rcases hload : (loadRoot (context g .empty) g.root g.bytes).from ⟨.empty, []⟩ with
    ⟨e | ⟨⟩, q⟩
  · obtain ⟨path, chain, rfl, hcycle⟩ :=
      ((runs_loadRoot hnew hload).cause rfl).isCycle hover hcompiles
    refine ⟨⟨fun h => ?_, fun h => absurd hcycle.cyclic h⟩, fun _ => ⟨path, chain, rfl, hcycle⟩⟩
    cases h
  · obtain ⟨new, hadds⟩ := loadRoot_adds hnew hload
    have hacyclic : ¬ g.Cyclic := hadds.not_cyclic rfl
    exact ⟨⟨fun _ => hacyclic, fun _ => rfl⟩, fun h => absurd h hacyclic⟩

/-- A root that leads to two files importing each other, by spellings that are no keys. -/
def looped : ImportGraph where
  root := "a"
  bytes := importsOf ["b"]
  resolver := .ofTable (.ofList [(⟨"b"⟩, importsOf ["x/../c"]), (⟨"c"⟩, importsOf ["./b"])])
  nesting := .nested

/-- The cycle behind `a` is found, and shown from `a` on. -/
theorem looped_detects_cycles :
    (∀ name, looped.Reachable name → (looped.compiled? name).isSome) ∧ looped.Cyclic ∧
    ∃ path chain,
      (loadInto looped.resolver looped.nesting looped.root looped.bytes .empty).result =
        .error (.importCycle path chain) ∧ looped.IsCycle path chain := by
  have hcompiles : ∀ name, looped.Reachable name → (looped.compiled? name).isSome :=
    ImportGraph.compiled_of_closed ["a", "b", "c"] (by decide) (by decide +kernel)
  have hab : looped.Edge "a" "b" := by unfold ImportGraph.Edge; decide +kernel
  have hbc : looped.Edge "b" "c" := by unfold ImportGraph.Edge; decide +kernel
  have hcb : looped.Edge "c" "b" := by unfold ImportGraph.Edge; decide +kernel
  have hcyclic : looped.Cyclic := ⟨"b", .single hab, .tail (.single hbc) hcb⟩
  exact ⟨hcompiles, hcyclic,
    (loadInto_detects_cycles looped (.ofTable _) hcompiles).2 hcyclic⟩

end Schemata
