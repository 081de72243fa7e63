/-
What a table answers after any files were put in.

A table is asked four things, and each of them is first asked about the normal form.  So a
table is a map over normal forms: a file is found by every spelling of its path, and of the
files that were put in under one normal form the last one counts.

Directories are no entries.  They are read off the paths of the files: what lies below a path
is what goes on from its normal form, and a path at which no file lies is a directory if
anything lies below it.  A path can have both, a file and others below it.  It is a file then,
but lists what is below it all the same.
-/
import Schemata.Proofs.Source.Listed

namespace Schemata

namespace Table

/-! ### Spellings -/

section

variable (t : Table) {p q : Path}

theorem content?_congr (h : p.normalComponents = q.normalComponents) :
    t.content? p = t.content? q := by
  rw [content?, content?, h]

theorem list_congr (h : p.normalComponents = q.normalComponents) : t.list p = t.list q := by
  rw [list, list, h]

theorem isDir_congr (h : p.normalComponents = q.normalComponents) : t.isDir p = t.isDir q := by
  rw [isDir, isDir, t.content?_congr h, h]

theorem present_congr (h : p.normalComponents = q.normalComponents) :
    t.present p = t.present q := by
  rw [present, present, t.content?_congr h, t.isDir_congr h]

end

/-! ### Contents -/

/-- The content of the last of the files whose path has the normal form of `p`. -/
def lastContent? (files : List (Path × ByteArray)) (p : Path) : Option ByteArray :=
  (files.reverse.find? fun f => f.1.normalize = p.normalize).map (·.2)

section

variable {t : Table} {files : List (Path × ByteArray)} {p dir : Path} {content : ByteArray}

theorem lastContent?_eq_none_iff :
    lastContent? files p = none ↔ ∀ f ∈ files, f.1.normalize ≠ p.normalize := by
  simp [lastContent?]

/-- A file is found by the spellings of its path, and nothing else is found differently. -/
theorem content?_insert (t : Table) (path : Path) (content : ByteArray) (p : Path) :
    (t.insert path content).content? p =
      if path.normalize = p.normalize then some content else t.content? p := by
  rw [content?, content?, insert, Std.TreeMap.getElem?_insert]
  simp only [Std.LawfulEqCmp.compare_eq_iff_eq, Path.normalize_eq_iff]

/-- **The last file of a normal form is found.** -/
theorem content?_ofList (files : List (Path × ByteArray)) (p : Path) :
    (ofList files).content? p = lastContent? files p := by
  induction files using List.reverseRecOn with
  | nil => simp [ofList, empty, content?, lastContent?]
  | append_singleton files f ih =>
      rw [ofList_concat, content?_insert, ih, lastContent?, lastContent?, List.reverse_concat,
        List.find?_cons]
      by_cases hf : f.1.normalize = p.normalize <;> simp [hf]

theorem read_ok_iff : t.read p = .ok content ↔ t.content? p = some content := by
  rw [read]
  cases t.content? p <;> simp

theorem read_error_iff {e : AccessFault} :
    t.read p = .error e ↔ t.content? p = none ∧ e = .notInTable p.normalize := by
  rw [read]
  cases t.content? p <;> simp [eq_comm]

theorem exists_read_error_iff : (∃ e, t.read p = .error e) ↔ t.content? p = none := by
  simp only [read_error_iff, exists_and_left, exists_eq, and_true]

/-! ### Directories -/

theorem list_ne_nil_iff : t.list dir ≠ [] ↔ t.keys.any (isBelow dir.normalComponents) = true := by
  rw [list, Ne, List.map_eq_nil_iff, List.filter_eq_nil_iff, List.any_eq_true]
  push Not
  rfl

/-- A directory is what cannot be read and has something to list. -/
theorem isDir_iff : t.isDir p = true ↔ (∃ e, t.read p = .error e) ∧ t.list p ≠ [] := by
  rw [isDir, Bool.and_eq_true, Option.isNone_iff_eq_none, exists_read_error_iff, list_ne_nil_iff]

theorem present_iff :
    t.present p = true ↔ (∃ content, t.read p = .ok content) ∨ t.isDir p = true := by
  simp only [present, Bool.or_eq_true, Option.isSome_iff_exists, read_ok_iff]

end

end Table

/-! ### What is stored -/

namespace Source

/-- The paths are what lies below a directory when these files were put in. -/
structure IsListing (source : Source) (files : List (Path × ByteArray)) (dir : Path)
    (paths : List Path) : Prop where
  /-- They ascend, component by component. -/
  ascending : paths.Pairwise fun p q => compare p.components q.components = .lt
  nodup : paths.Nodup
  /-- They are the normal forms of files that go on from the directory's. -/
  mem_iff : ∀ p, p ∈ paths ↔ (∃ f ∈ files, f.1.normalize = p) ∧
    dir.normalize.components <+: p.components ∧ dir.normalize.components ≠ p.components
  readable : ∀ p ∈ paths, ∃ content, source.read p = .ok content

/-- The source answers as a map over normal forms does into which these files were put, one after
the other. -/
structure Keeps (source : Source) (files : List (Path × ByteArray)) : Prop where
  /-- A read gives the last content of a normal form. -/
  read_ok : ∀ p content,
    source.read p = .ok content ↔ Table.lastContent? files p = some content
  /-- It fails only if there is none, and tells which normal form was looked for. -/
  read_error : ∀ p e, source.read p = .error e ↔
    (∀ f ∈ files, f.1.normalize ≠ p.normalize) ∧ e = .notInTable p.normalize
  list : ∀ dir, ∃ paths, source.list dir = .ok paths ∧ source.IsListing files dir paths
  isDir : ∀ p, source.isDir p = true ↔
    (∃ e, source.read p = .error e) ∧ ∃ paths, source.list p = .ok paths ∧ paths ≠ []
  present : ∀ p, source.present p = true ↔
    (∃ content, source.read p = .ok content) ∨ source.isDir p = true
  /-- Spellings of one path are answered alike. -/
  respelled : ∀ p q, p.normalize = q.normalize → source.read p = source.read q ∧
    source.list p = source.list q ∧ source.isDir p = source.isDir q ∧
    source.present p = source.present q

end Source

namespace Table

theorem isListing_list (files : List (Path × ByteArray)) (dir : Path) :
    (ofList files).source.IsListing files dir ((ofList files).list dir) := by
  have hascending := (ofList files).list_pairwise (fun _ => isNormal_of_mem_keys) dir
  have hirrefl : ∀ p q : Path, compare p.components q.components = .lt → p ≠ q := by
    rintro p _ hlt rfl
    exact Ordering.noConfusion (Std.ReflCmp.compare_self.symm.trans hlt)
  constructor
  case ascending => exact hascending
  case nodup => exact hascending.imp (hirrefl _ _)
  case mem_iff =>
    intro p
    rw [mem_list_ofList, Path.components_normalize]
  case readable =>
    intro p hp
    obtain ⟨rest, h⟩ := exists_listed hp
    exact h.content.imp fun _ => read_ok_iff.mpr

/-- **A table is a map over normal forms, and its directories are what the paths in it say.** -/
theorem keeps_ofList (files : List (Path × ByteArray)) : (ofList files).source.Keeps files where
  read_ok p content := by
    rw [← content?_ofList]
    exact read_ok_iff
  read_error p e := by
    rw [← lastContent?_eq_none_iff, ← content?_ofList]
    exact read_error_iff
  list dir := ⟨_, rfl, isListing_list files dir⟩
  isDir p := isDir_iff.trans (and_congr_right fun _ =>
    ⟨fun hne => ⟨_, rfl, hne⟩, fun ⟨_, heq, hne⟩ => Except.ok.inj heq ▸ hne⟩)
  present p := present_iff
  respelled p q h := by
    have hnormal := Path.normalize_eq_iff.mp h
    have hread : (ofList files).read p = (ofList files).read q := by
      rw [read, read, content?_congr _ hnormal, h]
    exact ⟨hread, congrArg Except.ok (list_congr _ hnormal), isDir_congr _ hnormal,
      present_congr _ hnormal⟩

-- A file, with another one below it and its first content replaced.
example :
    let t := ofList [(⟨"d/../a"⟩, .empty), (⟨"a/b"⟩, .empty), (⟨"./a"⟩, "x".toUTF8)]
    t.content? ⟨"a/c/.."⟩ = some "x".toUTF8 ∧ t.list ⟨"."⟩ = [⟨"a"⟩, ⟨"a/b"⟩] ∧
      t.isDir ⟨"a"⟩ = false ∧ t.list ⟨"a/"⟩ = [⟨"a/b"⟩] ∧ t.isDir ⟨"a/b/.."⟩ = false ∧
        t.isDir ⟨""⟩ = true := by
  decide +kernel

end Table

end Schemata
