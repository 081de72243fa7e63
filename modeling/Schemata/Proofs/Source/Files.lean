/-
Sources that show the same files.

Files at places of names say by themselves what lies where: a place is a file's, or it is a
directory because files lie below it.  A source shows such files if this is all it answers
from.  Two sources that show the same files then agree wherever a path of names leads, on what
is there, on what it holds and on what it lists, in the same order.
-/
import Mathlib.Data.List.Nodup
import Schemata.Proofs.Path.Names
import Schemata.Proofs.Resolver.Directories

namespace Schemata

/-- Files at places of names, as a disk can hold them. -/
structure IsLayout (files : List (List Raw × ByteArray)) : Prop where
  /-- No file is at the top itself. -/
  below : ∀ f ∈ files, f.1 ≠ []
  isName : ∀ f ∈ files, ∀ s ∈ f.1, IsName s
  /-- No name has a NUL in it. -/
  noNul : ∀ f ∈ files, ∀ s ∈ f.1, 0 ∉ s
  /-- No two files are at one place. -/
  distinct : (files.map (·.1)).Nodup
  /-- No file is where another one needs a directory. -/
  leaf : ∀ f ∈ files, ∀ g ∈ files, f.1 <+: g.1 → f.1 = g.1

/-- The source answers about paths of names as the files say, and from nothing else. -/
structure Source.Shows (source : Source) (files : List (List Raw × ByteArray)) : Prop where
  present : ∀ {names : List Raw}, names ≠ [] → (∀ s ∈ names, IsName s) →
    (source.present (.ofNames names) = true ↔ ∃ f ∈ files, names <+: f.1)
  isDir : ∀ {names : List Raw}, names ≠ [] → (∀ s ∈ names, IsName s) →
    (source.isDir (.ofNames names) = true ↔ ∃ f ∈ files, names <+: f.1 ∧ names ≠ f.1)
  /-- No file is at the empty path. -/
  top : ¬ source.HasFile (.ofNames [])
  read : ∀ f ∈ files, source.read (.ofNames f.1) = .ok f.2
  /-- A directory lists the files below it in the order of their components. -/
  list : ∀ {names : List Raw}, names ≠ [] → (∃ f ∈ files, names <+: f.1 ∧ names ≠ f.1) →
    ∃ paths, source.list (.ofNames names) = .ok paths ∧
      paths.Perm ((files.filter fun f => names.isPrefixOf f.1).map fun f => .ofNames f.1) ∧
      paths.Pairwise fun p q => (compare p.components q.components).isLE = true
  depth : source.depth = (files.map fun f => f.2.size).foldr (· + ·) 0 + 2

namespace Source

variable {files : List (List Raw × ByteArray)} {s s' : Source} {names : List Raw} {p : Path}

/-- The sources have the same file at the path, or none. -/
structure SameFile (s s' : Source) (p : Path) : Prop where
  hasFile : s.HasFile p ↔ s'.HasFile p
  read : s.HasFile p → s.read p = s'.read p

namespace Shows

/-- A file is where the files say and nowhere else. -/
theorem hasFile_iff (h : s.Shows files) (hfiles : IsLayout files)
    (hnames : ∀ s ∈ names, IsName s) :
    s.HasFile (.ofNames names) ↔ ∃ f ∈ files, f.1 = names := by
  by_cases hne : names = []
  · subst hne
    exact iff_of_false h.top fun ⟨f, hf, hnil⟩ => hfiles.below f hf hnil
  rw [HasFile, h.present hne hnames, ← Bool.not_eq_true, h.isDir hne hnames]
  constructor
  · rintro ⟨⟨f, hf, hpre⟩, hnodir⟩
    exact ⟨f, hf, by_contra fun hproper => hnodir ⟨f, hf, hpre, Ne.symm hproper⟩⟩
  · rintro ⟨f, hf, rfl⟩
    refine ⟨⟨f, hf, List.prefix_refl _⟩, ?_⟩
    rintro ⟨g, hg, hpre, hproper⟩
    exact hproper (hfiles.leaf f hf g hg hpre)

theorem sameFile (h : s.Shows files) (h' : s'.Shows files) (hfiles : IsLayout files)
    (hnames : ∀ s ∈ names, IsName s) : s.SameFile s' (.ofNames names) where
  hasFile := by rw [h.hasFile_iff hfiles hnames, h'.hasFile_iff hfiles hnames]
  read hfile := by
    obtain ⟨f, hf, rfl⟩ := (h.hasFile_iff hfiles hnames).mp hfile
    rw [h.read f hf, h'.read f hf]

theorem present_eq (h : s.Shows files) (h' : s'.Shows files) (hne : names ≠ [])
    (hnames : ∀ s ∈ names, IsName s) :
    s.present (.ofNames names) = s'.present (.ofNames names) :=
  Bool.eq_iff_iff.mpr ((h.present hne hnames).trans (h'.present hne hnames).symm)

theorem isDir_eq (h : s.Shows files) (h' : s'.Shows files) (hne : names ≠ [])
    (hnames : ∀ s ∈ names, IsName s) : s.isDir (.ofNames names) = s'.isDir (.ofNames names) :=
  Bool.eq_iff_iff.mpr ((h.isDir hne hnames).trans (h'.isDir hne hnames).symm)

/-- What a directory lists are files. -/
theorem exists_of_mem_list {paths : List Path} (h : s.Shows files) (hne : names ≠ [])
    (hnames : ∀ s ∈ names, IsName s) (hdir : s.isDir (.ofNames names) = true)
    (hlist : s.list (.ofNames names) = .ok paths) (hp : p ∈ paths) :
    ∃ f ∈ files, p = .ofNames f.1 := by
  obtain ⟨paths', hlist', hperm, -⟩ := h.list hne ((h.isDir hne hnames).mp hdir)
  obtain rfl : paths = paths' := Except.ok.inj (hlist.symm.trans hlist')
  obtain ⟨f, hf, rfl⟩ := List.mem_map.mp (hperm.mem_iff.mp hp)
  exact ⟨f, (List.mem_filter.mp hf).1, rfl⟩

/-- Two lists of the same files in the same order are one. -/
theorem list_eq (h : s.Shows files) (h' : s'.Shows files) (hfiles : IsLayout files)
    (hne : names ≠ []) (hnames : ∀ s ∈ names, IsName s) (hdir : s.isDir (.ofNames names) = true) :
    s.list (.ofNames names) = s'.list (.ofNames names) := by
  have hbelow := (h.isDir hne hnames).mp hdir
  obtain ⟨paths, hlist, hperm, hsorted⟩ := h.list hne hbelow
  obtain ⟨paths', hlist', hperm', hsorted'⟩ := h'.list hne hbelow
  have hpaths : paths = paths' := by
    refine Path.eq_of_perm_of_pairwise (fun p hp => ?_) (hperm.trans hperm'.symm) hsorted hsorted'
    obtain ⟨f, hf, rfl⟩ := h.exists_of_mem_list hne hnames hdir hlist hp
    exact ⟨f.1, hfiles.isName f hf, rfl⟩
  rw [hlist, hlist', hpaths]

end Shows

end Source

end Schemata
