/-
A directory by another spelling.

A batch asks its source about a directory by the normal form alone, and in front of an import
it puts the normal form as well.  So two spellings of one directory stand for the same files
and answer the same imports, and the only place where the spelling shows is the name of a
file: the directory is stripped from its path as it is written.  Spellings that keep the same
names there are one to a batch that reports no errors.

An error is another matter, since it quotes the directory as it is written.  This is why the
two batches are compared by what they find and not by all they answer.
-/
import Schemata.Proofs.Batch.Directory
import Schemata.Proofs.Batch.Extension
import Schemata.Proofs.Source.Inserted

namespace Schemata

/-! ### Imports -/

namespace Resolver

variable {source : Source} {dir dir' : Path} {dirs : List Path}

/-- A key leads from a directory to the same place however the directory is spelled. -/
theorem within?_congr (h : dir.normalize = dir'.normalize) : within? dir = within? dir' := by
  funext key
  rw [within?, within?, h]

/-- What is found from a directory is found from it by any spelling. -/
theorem extends_respelled (h : dir.normalize = dir'.normalize) :
    (ofDirectories source (dir' :: dirs)).Extends (ofDirectories source (dir :: dirs)) := by
  refine extends_of_located fun key p hp => ?_
  rwa [locate?_cons, within?_congr h, ← locate?_cons] at hp

end Resolver

namespace Batch

variable {ctx : Context} {set set' : DescriptorSet} {name : String} {path base base' : Path}

/-- A job that is done is done alike from another spelling of its directory. -/
theorem perform_respelled (hbase : base.normalize = base'.normalize)
    (h : perform ctx set ⟨name, path, base⟩ = .ok set') :
    perform ctx set ⟨name, path, base'⟩ = .ok set' := by
  have hwidens : Widens ctx ctx ⟨name, path, base⟩ ⟨name, path, base'⟩ :=
    ⟨rfl, rfl, rfl, rfl, Resolver.extends_respelled hbase⟩
  exact hwidens.perform h

end Batch

open Batch

/-- **How a directory is spelled does not matter, if its spellings are alike.**  Of two spellings of
one directory, both of them normal forms or neither, a batch over the one comes to a set without
errors if and only if the batch over the other does, and it is the same set; so for any two
spellings if no name is in the normal form. -/
theorem compileAll_respelled (files : List (Path × ByteArray)) {config : Config} {root root' : Path}
    (hdir : (Table.ofList files).isDir root = true) (hsame : root.normalize = root'.normalize)
    (halike : (root.components = root.normalComponents ↔
      root'.components = root'.normalComponents) ∨ namesOf root.normalComponents = [])
    (set : DescriptorSet) :
    compileAll (Table.ofList files).source config [root] = .ok ⟨set, []⟩ ↔
      compileAll (Table.ofList files).source config [root'] = .ok ⟨set, []⟩ := by
  have hnormal : root.normalComponents = root'.normalComponents := by
    rw [← Path.components_normalize, hsame, Path.components_normalize]
  have hdir' : (Table.ofList files).isDir root' = true := Table.isDir_congr _ hnormal ▸ hdir
  have hkept := Path.keptNames_congr hnormal halike
  rw [compileAll_clean_iff, compileAll_clean_iff, plan_directory hdir, plan_directory hdir',
    ← Table.list_congr _ hnormal, List.foldlM_map, List.foldlM_map]
  refine and_congr_right fun _ => Fallible.foldlM_eq_ok_congr_mem fun p hp s t => ?_
  have hname := Table.relativeName_congr hnormal hkept (List.mem_filter.mp hp).1
  show perform _ s ⟨root.relativeName p, p, root⟩ = .ok t ↔
    perform _ s ⟨root'.relativeName p, p, root'⟩ = .ok t
  rw [hname]
  exact ⟨perform_respelled hsame, perform_respelled hsame.symm⟩

/-- A directory where one file imports another. -/
def spelled : List (Path × ByteArray) :=
  [(⟨"s/a.proto"⟩, importsOf ["b.proto"]), (⟨"s/b.proto"⟩, importsOf [])]

/-- Neither spelling is a normal form, and the batches come to one set. -/
theorem spelled_respelled :
    let set : DescriptorSet :=
      ⟨[importing "b.proto" [], importing "s/a.proto" ["b.proto"], importing "s/b.proto" []]⟩
    let config : Config := { Config.default with mode := .bestEffort }
    (Table.ofList spelled).isDir ⟨"./s"⟩ = true ∧
    Path.normalize ⟨"./s"⟩ = Path.normalize ⟨"s/../s"⟩ ∧
    compileAll (Table.ofList spelled).source config [⟨"./s"⟩] = .ok ⟨set, []⟩ ∧
    (compileAll (Table.ofList spelled).source config [⟨"./s"⟩] = .ok ⟨set, []⟩ ↔
      compileAll (Table.ofList spelled).source config [⟨"s/../s"⟩] = .ok ⟨set, []⟩) := by
  intro set config
  have hdir : (Table.ofList spelled).isDir ⟨"./s"⟩ = true := by decide +kernel
  have hsame : Path.normalize ⟨"./s"⟩ = Path.normalize ⟨"s/../s"⟩ := by decide +kernel
  exact ⟨hdir, hsame, Fallible.toOption_eq_some.mp (by decide +kernel),
    compileAll_respelled spelled hdir hsame (.inl (by decide +kernel)) set⟩

/-- From the normal form the files are named as they import each other; from another spelling
they keep the name of the directory, and the file that is imported is there twice. -/
theorem spelled_misnamed :
    Path.normalize ⟨"s"⟩ = Path.normalize ⟨"./s"⟩ ∧
    compileAll (Table.ofList spelled).source .default [⟨"s"⟩] =
      .ok ⟨⟨[importing "b.proto" [], importing "a.proto" ["b.proto"]]⟩, []⟩ ∧
    compileAll (Table.ofList spelled).source .default [⟨"./s"⟩] =
      .ok ⟨⟨[importing "b.proto" [], importing "s/a.proto" ["b.proto"],
        importing "s/b.proto" []]⟩, []⟩ :=
  ⟨by decide +kernel, Fallible.toOption_eq_some.mp (by decide +kernel),
    Fallible.toOption_eq_some.mp (by decide +kernel)⟩

end Schemata
