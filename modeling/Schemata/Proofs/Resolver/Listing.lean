/-
Two routes to the name of a file.

A scan names the files a directory lists by stripping the directory from their paths.  An import
names a file by a key, and the key is joined to the directory before any include path is asked.
For files of a table the routes agree: the name a listed file gets from a scan, read as a key,
leads back to that file.

The directory has to be written in normal form, or stripping it is no inverse of joining; and
it may not be empty or climb, since a path below it could then climb as well, and such a
component is left out of the name.
-/
import Mathlib.Data.Set.Function
import Schemata.Proofs.Source.Listed

namespace Schemata

/-! ### Directories written in normal form -/

namespace Path

/-- The directory is written in normal form, is not empty and does not climb. -/
structure IsPlain (root : Path) : Prop where
  normal : root.normalize.components = root.components
  nonempty : root.components ≠ []
  noUp : .up ∉ root.components

theorem IsPlain.normalComponents_eq {root : Path} (h : root.IsPlain) :
    root.normalComponents = root.components := by
  rw [← h.normal, components_normalize]

theorem IsPlain.keptNames_eq {root : Path} (h : root.IsPlain) : root.keptNames = [] :=
  if_pos h.normalComponents_eq.symm

theorem IsPlain.not_onlyClimbs {root : Path} (h : root.IsPlain) : ¬ root.OnlyClimbs := by
  intro hclimbs
  obtain ⟨c, hc⟩ := List.exists_mem_of_ne_nil _ h.nonempty
  exact h.noUp (hclimbs c (h.normalComponents_eq ▸ hc) ▸ hc)

end Path

/-! ### Files a table lists -/

namespace Table

variable {files : List (Path × ByteArray)} {root p q : Path} {names : List Raw}

namespace Listed

variable {t : Table}

/-- A plain directory is stripped from the path of a file, and the names after it are left. -/
theorem namesBelow_of_plain (h : t.Listed root p (names.map .name)) (hroot : root.IsPlain) :
    root.namesBelow p = names := by
  rw [h.namesBelow_eq, hroot.keptNames_eq, namesOf_names, List.nil_append]

/-- The names of the file, read as a key, lead from the directory to the file. -/
theorem candidate {key : String} (h : t.Listed root p (names.map .name))
    (hnames : ∀ s ∈ names, IsName s) (hkey : (key : Raw) = joinSlash names) :
    Resolver.Candidate root key p := by
  have htarget : (root.normalize.join ⟨key⟩).normalComponents = p.components := by
    rw [hkey]
    rw [Path.normalComponents_join _ (Path.isAbsolute_joinSlash hnames),
      Path.normalComponents_normalize, Path.walk_joinSlash _ hnames, h.components]
    simp
  refine ⟨?_, names, hnames, h.components⟩
  rw [Path.normalize, htarget, h.spelled]

end Listed

/-- **Files a directory lists have different names**, if these are made of texts. -/
theorem relativeName_injOn (hroot : root.IsPlain) :
    Set.InjOn root.relativeName {p | p ∈ (ofList files).list root ∧ root.Legible p} :=
  fun _ hp _ hq hpq => eq_of_relativeName_eq hp.1 hq.1 hp.2 hq.2
    (lead_eq_of_mem_list hroot.not_onlyClimbs hp.1 hq.1) hpq

/-- **A listed file is what its name resolves to**, whatever directories come after the one it is
listed by. -/
theorem resolve_relativeName (hroot : root.IsPlain) (hp : p ∈ (ofList files).list root)
    (htext : root.Legible p) (dirs : List Path) :
    (Resolver.ofDirectories (ofList files).source (root :: dirs)).resolve (root.relativeName p) =
      (ofList files).read p := by
  obtain ⟨rest, h⟩ := exists_listed hp
  obtain ⟨names, rfl, hnames⟩ := h.exists_names hroot.not_onlyClimbs
  have hkey : (root.relativeName p : Raw) = joinSlash names := by
    rw [Path.ofString_relativeName htext, h.namesBelow_of_plain hroot]
  have hrelative : Path.isAbsolute ⟨root.relativeName p⟩ = false := by
    rw [hkey, Path.isAbsolute_joinSlash hnames]
  exact Resolver.resolve_of_located (ofList files).source
    (Resolver.locate?_cons_of_file hrelative (h.candidate hnames hkey) h.hasFile)

end Table

end Schemata
