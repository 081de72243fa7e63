/-
The files a load can meet, as a graph.

A file is known by its name: the outermost by the name it is given, every other by the
key an import spells.  What a file holds follows from its name alone, since resolvers are
pure, and so does what it imports; that is all the graph consists of.  It says nothing
about the order files are met in or about what is compiled already.

`ImportGraph.Chain` describes the files that are open at one moment of a load, from the
outermost to the innermost.  Later proofs carry it through every step.
-/
import Mathlib.Data.List.Chain
import Schemata.Loading
import Schemata.Proofs.Lowering.Imports

namespace Schemata

open Relation

/-- A file to be loaded and what its load depends on. -/
structure ImportGraph where
  root : String
  bytes : ByteArray
  resolver : Resolver
  nesting : Nesting

namespace ImportGraph

/-- What a file holds: the root the bytes given, any other what the resolver answers. -/
def content? (g : ImportGraph) (name : String) : Option ByteArray :=
  if name = g.root then some g.bytes else (g.resolver.resolve name).toOption

/-- A file compiled on its own. -/
def compiled? (g : ImportGraph) (name : String) : Option Compiled :=
  (g.content? name).bind fun bytes => (compileBytes name bytes g.nesting).toOption

/-- The keys a file imports, in order. -/
def imports (g : ImportGraph) (name : String) : List String :=
  match g.compiled? name with
  | some c => c.schema.imports.map fun i => importKey i.path
  | none => []

/-- The file `a` imports the file `b`. -/
def Edge (g : ImportGraph) (a b : String) : Prop := b ∈ g.imports a

/-- The root leads to the file by imports. -/
def Reachable (g : ImportGraph) (name : String) : Prop := ReflTransGen g.Edge g.root name

@[simp] theorem content?_root (g : ImportGraph) : g.content? g.root = some g.bytes := by
  simp [content?]

theorem content?_of_ne {g : ImportGraph} {name : String} (h : name ≠ g.root) :
    g.content? name = (g.resolver.resolve name).toOption := by
  simp [content?, h]

theorem compiled?_eq_some {g : ImportGraph} {name : String} {c : Compiled} :
    g.compiled? name = some c ↔
      ∃ bytes, g.content? name = some bytes ∧ compileBytes name bytes g.nesting = .ok c := by
  simp only [compiled?, Option.bind_eq_some_iff]
  refine exists_congr fun bytes => and_congr_right fun _ => ?_
  cases compileBytes name bytes g.nesting <;> simp [Except.toOption]

/-- What a file holds compiles to what the file is compiled to. -/
theorem compileBytes_of_compiled? {g : ImportGraph} {name : String} {bytes : ByteArray}
    {c : Compiled} (hc : g.compiled? name = some c) (hbytes : g.content? name = some bytes) :
    compileBytes name bytes g.nesting = .ok c := by
  obtain ⟨bytes', hbytes', hcompile⟩ := compiled?_eq_some.mp hc
  obtain rfl : bytes = bytes' := Option.some.inj (hbytes.symm.trans hbytes')
  exact hcompile

theorem imports_of_compiled? {g : ImportGraph} {name : String} {c : Compiled}
    (h : g.compiled? name = some c) :
    g.imports name = c.schema.imports.map fun i => importKey i.path := by
  simp [imports, h]

/-- A compiled file goes by its name in the graph. -/
theorem name_of_compiled? {g : ImportGraph} {name : String} {c : Compiled}
    (h : g.compiled? name = some c) : c.file.name = name := by
  obtain ⟨_, _, hc⟩ := compiled?_eq_some.mp h
  exact name_of_compileBytes hc

/-- The keys a file imports are those of the dependencies it records. -/
theorem imports_eq_dependencies {g : ImportGraph} {name : String} {c : Compiled}
    (h : g.compiled? name = some c) : g.imports name = c.file.dependencies.map importKey := by
  obtain ⟨_, _, hc⟩ := compiled?_eq_some.mp h
  rw [imports_of_compiled? h, dependencies_of_compileBytes hc, List.map_map]
  rfl

/-- The head of a linked list leads to every entry. -/
theorem reflTransGen_of_isChain {α : Type} {R : α → α → Prop} {x : α} {xs : List α}
    (h : xs.IsChain R) (hhead : xs.head? = some x) : ∀ y ∈ xs, ReflTransGen R x y := by
  refine List.IsChain.induction (ReflTransGen R x) xs h (fun _ _ hyz hy => hy.tail hyz) ?_
  intro hne
  rw [List.head?_eq_some_head hne, Option.some.injEq] at hhead
  rw [hhead]

/-- Files that can be open at once, the outermost first. -/
structure Chain (g : ImportGraph) (names : List String) : Prop where
  head : names.head? = some g.root
  nodup : names.Nodup
  linked : names.IsChain g.Edge
  content : ∀ name ∈ names, ∃ bytes, g.content? name = some bytes

theorem chain_root (g : ImportGraph) : g.Chain [g.root] where
  head := rfl
  nodup := by simp
  linked := .singleton _
  content := by simp

namespace Chain

variable {g : ImportGraph} {names : List String}

theorem root_mem (h : g.Chain names) : g.root ∈ names := List.mem_of_mem_head? h.head

/-- A chain grows by a new file that its innermost one imports. -/
theorem snoc {last name : String} {bytes : ByteArray} (h : g.Chain names)
    (hlast : names.getLast? = some last) (hedge : g.Edge last name) (hnew : name ∉ names)
    (hbytes : g.content? name = some bytes) : g.Chain (names ++ [name]) where
  head := by
    rw [List.head?_append, h.head]
    rfl
  nodup := by
    refine List.nodup_append.mpr ⟨h.nodup, by simp, ?_⟩
    rintro x hx y hy rfl
    exact hnew (List.mem_singleton.mp hy ▸ hx)
  linked := by
    refine List.isChain_append.mpr ⟨h.linked, .singleton _, ?_⟩
    intro x hx y hy
    obtain rfl : x = last := by simpa [hlast] using hx.symm
    obtain rfl : y = name := by simpa using hy.symm
    exact hedge
  content := by
    intro x hx
    rcases List.mem_append.mp hx with hx | hx
    · exact h.content x hx
    · exact ⟨bytes, List.mem_singleton.mp hx ▸ hbytes⟩

/-- The files around the innermost one are a chain too. -/
theorem init {name : String} (h : g.Chain (names ++ [name])) (hne : names ≠ []) :
    g.Chain names where
  head := by rw [← h.head, List.head?_append_of_ne_nil _ hne]
  nodup := (List.nodup_append.mp h.nodup).1
  linked := (List.isChain_append.mp h.linked).1
  content x hx := h.content x (List.mem_append_left _ hx)

/-- The innermost file is none of those around it. -/
theorem notMem {name : String} (h : g.Chain (names ++ [name])) : name ∉ names :=
  fun hmem => (List.nodup_append.mp h.nodup).2.2 name hmem name (by simp) rfl

/-- A file that is not open is not the root, so the resolver answers for it. -/
theorem content?_of_notMem (h : g.Chain names) {name : String} (hnew : name ∉ names) :
    g.content? name = (g.resolver.resolve name).toOption :=
  content?_of_ne fun he => hnew (he ▸ h.root_mem)

/-- The root leads to every open file. -/
theorem reachable (h : g.Chain names) : ∀ name ∈ names, g.Reachable name :=
  reflTransGen_of_isChain h.linked h.head

end Chain

end ImportGraph

end Schemata
