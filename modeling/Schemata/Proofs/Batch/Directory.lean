/-
A directory as the only root.

A file below the root can be met twice: the scan comes to it, and other files import it.  Each
goes by a name of its own making, and the set keeps what comes under a name first.  For a
directory of a table this makes no difference, if the names of its schema files are texts.
Whichever file is loaded, the graph of its load holds under the name of a listed file just that
file; so the set holds it too, compiled on its own.

Names that are no texts can look alike, and then the scan keeps the first of the files that have
them and takes the others for files it has met before.
-/
import Schemata.Proofs.Batch.Plan
import Schemata.Proofs.Resolver.Listing

namespace Schemata

open Relation Descriptor

/-- Within the set it leads to, a load of a new root reaches all that it adds. -/
theorem Loading.Adds.reaches {g : ImportGraph} {known : DescriptorSet} {p q : Progress}
    {new : List File} (h : Adds g known [g.root] p q new) (hroot : g.root ∉ p.done known) :
    ∀ f ∈ new, ReflTransGen q.set.Imports g.root f.name := by
  have hall : ∀ name, ReflTransGen (Step g.imports (p.done known)) g.root name →
      ReflTransGen q.set.Imports g.root name := by
    intro name hsteps
    induction hsteps with
    | refl => exact .refl
    | @tail b c hab hbc ih =>
        obtain ⟨importer, himporter, rfl⟩ := List.mem_map.mp ((h.mem_iff hroot b).mpr hab)
        refine .tail ih ⟨importer, h.files ▸ List.mem_append_right _ himporter, rfl, ?_⟩
        rw [h.dependencies himporter]
        exact hbc.1
  exact fun f hf => hall f.name ((h.mem_iff hroot f.name).mp (List.mem_map_of_mem hf))

namespace Batch

variable {files : List (Path × ByteArray)} {config : Config} {root p q : Path}
  {set set' : DescriptorSet}

/-- When a listed file is loaded, every listed file is met under its name, if it has one that is
a text. -/
theorem content?_relativeName {bytes : ByteArray} (hroot : root.IsPlain)
    (hp : p ∈ (Table.ofList files).list root) (hptext : root.Legible p)
    (hread : (Table.ofList files).read p = .ok bytes)
    (hq : q ∈ (Table.ofList files).list root) (hqtext : root.Legible q) (dirs : List Path)
    (nesting : Nesting) :
    ImportGraph.content? ⟨root.relativeName p, bytes,
      .ofDirectories (Table.ofList files).source (root :: dirs), nesting⟩ (root.relativeName q) =
      ((Table.ofList files).read q).toOption := by
  by_cases hname : root.relativeName q = root.relativeName p
  · obtain rfl : q = p := Table.relativeName_injOn hroot ⟨hq, hqtext⟩ ⟨hp, hptext⟩ hname
    rw [ImportGraph.content?, if_pos rfl, hread]
    rfl
  · rw [ImportGraph.content?_of_ne hname, Table.resolve_relativeName hroot hq hqtext]

/-- What the set of a scan under way holds. -/
structure Scanned (t : Table) (config : Config) (root : Path) (set : DescriptorSet) : Prop where
  /-- Under the name of a listed file stands that file, compiled on its own. -/
  faithful : ∀ f ∈ set.files, ∀ p ∈ t.list root, root.Legible p → f.name = root.relativeName p →
    ∃ bytes schema, t.read p = .ok bytes ∧
      compileBytes f.name bytes config.nesting = .ok ⟨schema, f⟩
  /-- Imports lead to each file from a schema file that is listed. -/
  reached : ∀ f ∈ set.files, ∃ p ∈ t.list root, config.matchesExtension p = true ∧
    ReflTransGen set.Imports (root.relativeName p) f.name

/-- **A schema file that is listed keeps the set of a scan as it has to be.** -/
theorem Scanned.attempt (hroot : root.IsPlain) (hp : p ∈ (Table.ofList files).list root)
    (htext : root.Legible p) (hext : config.matchesExtension p = true)
    (h : Scanned (Table.ofList files) config root set)
    (hitem : attempt ⟨(Table.ofList files).source, config⟩ set
      (.file ⟨root.relativeName p, p, root⟩) = .ok set') :
    Scanned (Table.ofList files) config root set' := by
  have hgrows : set.files <+: set'.files := files_prefix_of_attempt hitem
  cases performed_of_attempt hitem with
  | taken => exact h
  | added hname hread hadds =>
      constructor
      · intro f hf q hq hqtext hfq
        rw [hadds.files] at hf
        rcases List.mem_append.mp hf with hf | hf
        · exact h.faithful f hf q hq hqtext hfq
        · obtain ⟨⟨schema, file⟩, hc, rfl⟩ := hadds.compiled f hf
          obtain ⟨bytes', hbytes', hcompile⟩ := ImportGraph.compiled?_eq_some.mp hc
          rw [hfq, resolver, content?_relativeName hroot hp htext hread hq hqtext] at hbytes'
          exact ⟨bytes', schema, Fallible.toOption_eq_some.mp hbytes', hcompile⟩
      · intro f hf
        rw [hadds.files] at hf
        rcases List.mem_append.mp hf with hf | hf
        · obtain ⟨q, hq, hqext, hsteps⟩ := h.reached f hf
          exact ⟨q, hq, hqext,
            ReflTransGen.mono (fun _ _ => DescriptorSet.Imports.mono hgrows) _ _ hsteps⟩
        · exact ⟨p, hp, hext, hadds.reaches hname f hf⟩

/-- A directory of a table stands for the schema files it lists. -/
theorem plan_directory (hdir : (Table.ofList files).isDir root = true) :
    plan ⟨(Table.ofList files).source, config⟩ [root] =
      (((Table.ofList files).list root).filter config.matchesExtension).map fun p =>
        .file ⟨root.relativeName p, p, root⟩ := by
  have hpresent : (Table.ofList files).present root = true := by
    rw [Table.present, hdir, Bool.or_true]
  rw [plan, List.flatMap_singleton]
  exact itemsOf_directory hpresent hdir rfl

/-- The set has what the directory lists, by the names of a scan, and what that imports. -/
structure DirectorySet (t : Table) (config : Config) (root : Path) (set : DescriptorSet) :
    Prop where
  /-- Under the name of a schema file that is listed stands one descriptor, which is that file
  compiled on its own. -/
  unique : ∀ p ∈ t.list root, config.matchesExtension p = true →
    ∃ bytes schema file, t.read p = .ok bytes ∧
      compileBytes (root.relativeName p) bytes config.nesting = .ok ⟨schema, file⟩ ∧
      set.files.filter (·.name = root.relativeName p) = [file]
  /-- Schema files that are listed have different names. -/
  distinct : Set.InjOn root.relativeName {p | p ∈ t.list root ∧ config.matchesExtension p = true}
  /-- Imports lead to each file from a schema file that is listed. -/
  reached : ∀ f ∈ set.files, ∃ p ∈ t.list root, config.matchesExtension p = true ∧
    ReflTransGen set.Imports (root.relativeName p) f.name

end Batch

/-- A file of the directory is imported before the scan comes to it, and an include path has a
file of the same name. -/
def imported : List (Path × ByteArray) :=
  [(⟨"d/a.proto"⟩, importsOf ["x.proto", "./c.proto"]), (⟨"d/c.proto"⟩, importsOf []),
    (⟨"lib/c.proto"⟩, importsOf ["a.proto"]), (⟨"lib/x.proto"⟩, importsOf ["/c.proto"])]

/-- Two files whose names differ in a byte with which no character begins. -/
def lookalikes : List (Path × ByteArray) :=
  [(⟨"s/" ++ 0xFE :: Raw.ofString ".proto"⟩, importsOf []),
    (⟨"s/" ++ 0xFF :: Raw.ofString ".proto"⟩, "syntax = \"proto2\";".toUTF8)]

end Schemata
