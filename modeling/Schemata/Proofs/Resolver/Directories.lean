/-
What include directories let an import reach.

A key leads from a directory to one place, the key walked along from where the directory
ends.  The place is looked at only if it lies in the directory: the components of the
directory in normal form, and after them nothing but names.  A key may climb and come back,
but not stay outside.

Keys are relative, and this is needed: an absolute path joined to a directory forgets the
directory, and then the empty normal form is no bound at all.
-/
import Schemata.Source
import Schemata.Proofs.Path.Keys

namespace Schemata

/-- The path is the directory's normal form with names after it, or none. -/
def Path.LiesIn (p dir : Path) : Prop :=
  ∃ names : List Raw, (∀ s ∈ names, IsName s) ∧
    p.components = dir.normalComponents ++ names.map .name

/-- A file is at the path: something that is no directory. -/
def Source.HasFile (source : Source) (p : Path) : Prop :=
  source.present p = true ∧ source.isDir p = false

namespace Resolver

variable {source : Source} {dirs : List Path} {dir p : Path} {key : String}

/-- The path is the one the key leads to from the directory, and it lies in there. -/
structure Candidate (dir : Path) (key : String) (p : Path) : Prop where
  target : p = (dir.normalize.join ⟨key⟩).normalize
  inside : p.LiesIn dir

/-! ### Staying inside -/

/-- The components a relative key leads to from a directory. -/
theorem components_target (dir : Path) (hkey : Path.isAbsolute ⟨key⟩ = false) :
    (dir.normalize.join ⟨key⟩).normalize.components =
      (Path.walk dir.normalComponents.reverse (segments key)).reverse := by
  rw [Path.components_normalize, Path.normalComponents_join _ hkey,
    Path.normalComponents_normalize]

/-- What stands behind the directory's components and is no `..` are names. -/
theorem liesIn_of_rest {rest : List Component} (hkey : Path.isAbsolute ⟨key⟩ = false)
    (hrest : (dir.normalize.join ⟨key⟩).normalize.components = dir.normalComponents ++ rest)
    (hup : .up ∉ rest) : (dir.normalize.join ⟨key⟩).normalize.LiesIn dir := by
  have hnormal : IsNormal (dir.normalComponents ++ rest) := by
    rw [← hrest, Path.components_normalize]
    exact Path.isNormal_normalComponents _
  have hroot : dir.normalComponents = [] → .root ∉ rest := by
    intro hempty hmem
    rw [components_target dir hkey, hempty, List.nil_append] at hrest
    rw [← hrest, List.mem_reverse] at hmem
    exact List.not_mem_nil (Path.root_mem_of_mem_walk hmem)
  obtain ⟨names, rfl, hnames⟩ := hnormal.names_of_append hroot hup
  exact ⟨names, hnames, hrest⟩

/-- **A relative key is looked for where it leads, exactly if that lies in the directory.** -/
theorem within?_eq_some_iff (hkey : Path.isAbsolute ⟨key⟩ = false) :
    within? dir key = some p ↔ Candidate dir key p := by
  have hprefix : dir.normalize.components = dir.normalComponents := Path.components_normalize dir
  rw [within?, Path.rest?, hprefix]
  constructor
  · intro h
    split at h
    · rename_i rest hrest
      split_ifs at hrest h with hpre hup
      cases h
      cases hrest
      obtain ⟨rest, hrest⟩ := List.isPrefixOf_iff_prefix.mp hpre
      rw [← hrest, List.drop_left] at hup
      exact ⟨rfl, liesIn_of_rest hkey hrest.symm hup⟩
    · cases h
  · rintro ⟨rfl, names, -, hnames⟩
    rw [hnames, if_pos (List.isPrefixOf_iff_prefix.mpr (List.prefix_append _ _)), List.drop_left]
    exact if_neg (by simp)

/-- A key may leave the directory and come back, but not stay outside. -/
example : within? ⟨"s/t"⟩ "../t/a" = some ⟨"s/t/a"⟩ ∧ within? ⟨"s/t"⟩ "../a" = .none := by
  decide +kernel

/-! ### The first candidate -/

theorem hasFile_iff : (source.present p && !source.isDir p) = true ↔ source.HasFile p := by
  simp [Source.HasFile]

theorem locate?_cons (source : Source) (dir : Path) (dirs : List Path) (key : String) :
    locate? source (dir :: dirs) key =
      match within? dir key with
      | some p => if source.present p && !source.isDir p then some p else locate? source dirs key
      | .none => locate? source dirs key := by
  rw [locate?, locate?, List.filterMap_cons]
  cases within? dir key with
  | none => rfl
  | some p =>
      rw [List.find?_cons]
      cases hfile : source.present p && !source.isDir p <;> simp [hfile]

/-- What is found is found again if more directories are searched after those there. -/
theorem locate?_append (h : locate? source dirs key = some p) (more : List Path) :
    locate? source (dirs ++ more) key = some p := by
  rw [locate?] at h ⊢
  rw [List.filterMap_append, List.find?_append, h]
  rfl

/-- The search ends at a directory whose candidate is a file. -/
theorem locate?_cons_of_file (hkey : Path.isAbsolute ⟨key⟩ = false) (hp : Candidate dir key p)
    (hfile : source.HasFile p) : locate? source (dir :: dirs) key = some p := by
  rw [locate?_cons, (within?_eq_some_iff hkey).mpr hp]
  exact if_pos (hasFile_iff.mpr hfile)

/-- The search goes on behind a directory without such a candidate. -/
theorem locate?_cons_of_no_file (hkey : Path.isAbsolute ⟨key⟩ = false)
    (hnone : ∀ q, Candidate dir key q → ¬ source.HasFile q) :
    locate? source (dir :: dirs) key = locate? source dirs key := by
  rw [locate?_cons]
  cases hwithin : within? dir key with
  | none => rfl
  | some q =>
      have hq := hnone q ((within?_eq_some_iff hkey).mp hwithin)
      exact if_neg (mt hasFile_iff.mp hq)

/-- What is located is the first candidate that is a file. -/
theorem exists_of_locate?_eq_some (hkey : Path.isAbsolute ⟨key⟩ = false)
    (h : locate? source dirs key = some p) :
    ∃ before dir after, dirs = before ++ dir :: after ∧ Candidate dir key p ∧ source.HasFile p ∧
      ∀ d ∈ before, ∀ q, Candidate d key q → ¬ source.HasFile q := by
  induction dirs with
  | nil => cases h
  | cons dir dirs ih =>
      by_cases hfound : ∃ q, Candidate dir key q ∧ source.HasFile q
      · obtain ⟨q, hq, hfile⟩ := hfound
        rw [locate?_cons_of_file hkey hq hfile] at h
        cases h
        exact ⟨[], dir, dirs, rfl, hq, hfile, by simp⟩
      · have hnone : ∀ q, Candidate dir key q → ¬ source.HasFile q :=
          fun q hq hfile => hfound ⟨q, hq, hfile⟩
        rw [locate?_cons_of_no_file hkey hnone] at h
        obtain ⟨before, d, after, rfl, hp, hfile, hfirst⟩ := ih h
        refine ⟨dir :: before, d, after, rfl, hp, hfile, fun e he => ?_⟩
        rcases List.mem_cons.mp he with rfl | he
        · exact hnone
        · exact hfirst e he

/-- If nothing is located no candidate is a file. -/
theorem not_hasFile_of_locate?_eq_none (hkey : Path.isAbsolute ⟨key⟩ = false)
    (h : locate? source dirs key = .none) :
    ∀ d ∈ dirs, ∀ q, Candidate d key q → ¬ source.HasFile q := by
  intro d hd q hq hfile
  have hmem : q ∈ dirs.filterMap fun dir => within? dir key :=
    List.mem_filterMap.mpr ⟨d, hd, (within?_eq_some_iff hkey).mpr hq⟩
  exact List.find?_eq_none.mp h q hmem (hasFile_iff.mpr hfile)

theorem resolve_of_located (source : Source) (h : locate? source dirs key = some p) :
    (ofDirectories source dirs).resolve key = source.read p := by
  show (match locate? source dirs key with | some path => _ | .none => _) = _
  rw [h]

theorem resolve_of_not_located (source : Source) (h : locate? source dirs key = .none) :
    (ofDirectories source dirs).resolve key = .error (.notInDirectories dirs) := by
  show (match locate? source dirs key with | some path => _ | .none => _) = _
  rw [h]

/-- **Imports reach nothing outside the include directories.**  Looking up an import comes to
one read, of the candidate of the first directory whose candidate is a file, and that candidate
lies in its directory; or to no read at all if no directory has such a candidate.  Which of the
two it is, and which file is read, does not depend on what reading answers. -/
theorem ofDirectories_reads_inside (source : Source) (dirs : List Path) (path : String) :
    (∃ before dir after found, dirs = before ++ dir :: after ∧
      Candidate dir (importKey path) found ∧ source.HasFile found ∧
      (∀ d ∈ before, ∀ q, Candidate d (importKey path) q → ¬ source.HasFile q) ∧
      ∀ read, (ofDirectories { source with read } dirs).resolve (importKey path) = read found) ∨
    ((∀ d ∈ dirs, ∀ q, Candidate d (importKey path) q → ¬ source.HasFile q) ∧
      ∀ read, (ofDirectories { source with read } dirs).resolve (importKey path) =
        .error (.notInDirectories dirs)) := by
  have hkey := isAbsolute_importKey path
  cases hlocate : locate? source dirs (importKey path) with
  | some found =>
      obtain ⟨before, dir, after, hdirs, hcandidate, hfile, hfirst⟩ :=
        exists_of_locate?_eq_some hkey hlocate
      refine .inl ⟨before, dir, after, found, hdirs, hcandidate, hfile, hfirst, fun read => ?_⟩
      exact resolve_of_located { source with read } hlocate
  | none =>
      refine .inr ⟨not_hasFile_of_locate?_eq_none hkey hlocate, fun read => ?_⟩
      exact resolve_of_not_located { source with read } hlocate

end Resolver

end Schemata
