/-
Absolute paths and include directories.

The import keys of a load are relative, but a resolver may be asked for any path.  An absolute
path joined to a directory forgets the directory: it leads to its own normal form, and all that
is asked of that form is to begin with the directory's.  There is no other test for absolute
paths.  Most directories have a normal form that no absolute path begins with, and then nothing
is looked for; but the normal form of the directory at hand is empty and begins every path, and
an absolute directory begins the absolute paths of the files in it.
-/
import Schemata.Source.Table
import Schemata.Proofs.Fallible
import Schemata.Proofs.Path.Canonical
import Schemata.Proofs.Resolver.Directories

namespace Schemata.Resolver

variable {source : Source} {dirs : List Path} {dir : Path} {key : String}

/-- Behind the root no normal form climbs. -/
theorem up_notMem_normalComponents (hkey : Path.isAbsolute ⟨key⟩ = true) :
    .up ∉ Path.normalComponents ⟨key⟩ := by
  have hroot := Path.root_mem_normalComponents hkey
  obtain ⟨names, -, heq⟩ := (Path.isNormal_normalComponents ⟨key⟩).exists_names hroot
  rw [heq]
  simp

/-- **An absolute path is looked for where it leads by itself, exactly if the directory's normal
form begins it.** -/
theorem within?_of_absolute (dir : Path) (hkey : Path.isAbsolute ⟨key⟩ = true) :
    within? dir key =
      if dir.normalComponents <+: Path.normalComponents ⟨key⟩ then some (Path.normalize ⟨key⟩)
      else .none := by
  have htarget : dir.normalize.join ⟨key⟩ = ⟨key⟩ := if_pos hkey
  rw [within?, htarget, Path.rest?, Path.components_normalize, Path.components_normalize]
  by_cases hpre : dir.normalComponents <+: Path.normalComponents ⟨key⟩
  · obtain ⟨rest, hrest⟩ := hpre
    have hup : .up ∉ rest := fun hmem =>
      up_notMem_normalComponents hkey (hrest ▸ List.mem_append_right _ hmem)
    rw [← hrest, if_pos (List.isPrefixOf_iff_prefix.mpr (List.prefix_append _ _)),
      if_pos (List.prefix_append _ _), List.drop_left]
    exact if_neg hup
  · rw [if_neg (mt List.isPrefixOf_iff_prefix.mp hpre), if_neg hpre]

/-- **An absolute path is refused by the directories that do not begin it.**  If the normal form of
no directory begins the path's, then the path is looked for in none of them, and whatever the
source holds, nothing is read and nothing is found; and if one does, the path is looked for. -/
theorem ofDirectories_refuses_absolute (dirs : List Path) (hkey : Path.isAbsolute ⟨key⟩ = true) :
    (∀ dir ∈ dirs, ¬ dir.normalComponents <+: Path.normalComponents ⟨key⟩) ↔
      (∀ dir ∈ dirs, within? dir key = .none) ∧
      (∀ source : Source,
        (ofDirectories source dirs).resolve key = .error (.notInDirectories dirs)) ∧
      (AccessFault.notInDirectories dirs).kind = "NotFound" := by
  constructor
  · intro hdirs
    have hnowhere : ∀ dir ∈ dirs, within? dir key = .none := fun dir hdir => by
      rw [within?_of_absolute dir hkey, if_neg (hdirs dir hdir)]
    have hcandidates : dirs.filterMap (fun dir => within? dir key) = [] :=
      List.filterMap_eq_nil_iff.mpr hnowhere
    refine ⟨hnowhere, fun source => resolve_of_not_located source ?_, rfl⟩
    rw [locate?, hcandidates]
    rfl
  · rintro ⟨hnowhere, -, -⟩ dir hdir hpre
    have hfound := hnowhere dir hdir
    rw [within?_of_absolute dir hkey, if_pos hpre] at hfound
    cases hfound

/-- A relative directory, one that climbs, and one beside the path. -/
theorem outside_refuses_absolute :
    let dirs : List Path := [⟨"srv/../inc"⟩, ⟨"../srv"⟩, ⟨"/srv/app"⟩]
    Path.isAbsolute ⟨"/srv/key"⟩ = true ∧
    (∀ dir ∈ dirs, ¬ dir.normalComponents <+: Path.normalComponents ⟨"/srv/key"⟩) ∧
    ∀ source : Source,
      (ofDirectories source dirs).resolve "/srv/key" = .error (.notInDirectories dirs) := by
  intro dirs
  have hkey : Path.isAbsolute ⟨"/srv/key"⟩ = true := by decide +kernel
  have hdirs : ∀ dir ∈ dirs, ¬ dir.normalComponents <+: Path.normalComponents ⟨"/srv/key"⟩ := by
    decide +kernel
  exact ⟨hkey, hdirs, ((ofDirectories_refuses_absolute dirs hkey).mp hdirs).2.1⟩

/-- A file outside of any directory, if the directories are relative. -/
def secret : Table := .ofList [(⟨"/srv/key"⟩, .mk #[1])]

/-- From the directory at hand an absolute path is read, wherever it leads, and from an absolute
directory it is read if it leads into it. -/
theorem secret_is_read :
    Path.isAbsolute ⟨"/srv/key"⟩ = true ∧
    (ofDirectories secret.source [⟨"."⟩]).resolve "/srv/key" = .ok (.mk #[1]) ∧
    (ofDirectories secret.source [⟨"/srv"⟩]).resolve "/srv/key" = .ok (.mk #[1]) :=
  ⟨by decide +kernel, Fallible.toOption_eq_some.mp (by decide +kernel),
    Fallible.toOption_eq_some.mp (by decide +kernel)⟩

end Schemata.Resolver
