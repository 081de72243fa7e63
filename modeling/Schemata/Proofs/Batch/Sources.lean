/-
A batch from a disk and a batch from memory.

A batch asks its source at few places: the roots, the files that roots list, and the places
imports lead to inside include directories.  All of these are paths of names, or the empty
path.  So two sources that show the same files give the same answers in a whole batch, and it
comes to the same set and the same errors; a tree of directories and a table in memory are two
such sources.

A root has to be its own normal form.  Behind the name of a file and a slash a tree has nothing,
while a table takes the slash away.
-/
import Mathlib.Data.List.Find
import Schemata.Batch
import Schemata.Proofs.Fallible
import Schemata.Proofs.Loading.Closure
import Schemata.Proofs.Loading.Chain
import Schemata.Proofs.Source.Table
import Schemata.Proofs.Source.Tree

namespace Schemata

/-! ### Imports -/

namespace Resolver

variable {files : List (List Raw × ByteArray)} {s s' : Source} {dirs : List Path}
  {dir p : Path} {key : String}

/-- Inside a directory that does not climb, imports are looked for at paths of names. -/
theorem Candidate.exists_ofNames (h : Candidate dir key p) (hdir : dir.IsInner) :
    ∃ names, (∀ s ∈ names, IsName s) ∧ p = .ofNames names := by
  obtain ⟨above, habove, heq⟩ := hdir.exists_names
  obtain ⟨names, hnames, hcomponents⟩ := h.inside
  refine ⟨above ++ names, List.forall_mem_append.mpr ⟨habove, hnames⟩, ?_⟩
  rw [heq, ← List.map_append, h.target, Path.components_normalize] at hcomponents
  rw [h.target, Path.normalize, hcomponents, Path.ofComponents_names]

/-- The first candidate that is a file is the same one for sources with the same files. -/
theorem locate?_congr (h : ∀ dir ∈ dirs, ∀ p, within? dir key = some p → s.SameFile s' p) :
    locate? s dirs key = locate? s' dirs key := by
  refine List.find?_congr fun p hp => ?_
  obtain ⟨dir, hdir, hwithin⟩ := List.mem_filterMap.mp hp
  rw [Bool.eq_iff_iff, hasFile_iff, hasFile_iff]
  exact (h dir hdir p hwithin).hasFile

/-- **Sources that show the same files answer alike for every import.** -/
theorem agrees_ofDirectories (h : s.Shows files) (h' : s'.Shows files) (hfiles : IsLayout files)
    (hdirs : ∀ dir ∈ dirs, dir.IsInner) :
    (ofDirectories s dirs).Agrees (ofDirectories s' dirs) where
  resolve path := by
    have hkey := isAbsolute_importKey path
    have hsame : ∀ dir ∈ dirs, ∀ p, within? dir (importKey path) = some p → s.SameFile s' p := by
      intro dir hdir p hwithin
      obtain ⟨names, hnames, rfl⟩ :=
        ((within?_eq_some_iff hkey).mp hwithin).exists_ofNames (hdirs dir hdir)
      exact h.sameFile h' hfiles hnames
    have hlocate' := locate?_congr hsame
    cases hlocate : locate? s dirs (importKey path) with
    | none =>
        rw [resolve_of_not_located s hlocate, resolve_of_not_located s' (hlocate' ▸ hlocate)]
    | some p =>
        rw [resolve_of_located s hlocate, resolve_of_located s' (hlocate' ▸ hlocate)]
        obtain ⟨_, dir, _, rfl, hcandidate, hfile, -⟩ := exists_of_locate?_eq_some hkey hlocate
        exact (hsame dir (by simp) p ((within?_eq_some_iff hkey).mpr hcandidate)).read hfile
  depth := h.depth.trans h'.depth.symm

end Resolver

/-! ### Jobs -/

namespace Batch

variable {files : List (List Raw × ByteArray)} {s s' : Source} {config : Config}
  {names : List String} {root : Path} {job : Job} {js : List Job}

/-- Sources that show the same files give a root the same jobs. -/
theorem jobs_congr (h : s.Shows files) (h' : s'.Shows files) (hfiles : IsLayout files)
    (hroot : root.Descends) : jobs ⟨s, config⟩ root = jobs ⟨s', config⟩ root := by
  obtain ⟨names, hne, hnames, rfl⟩ := hroot.exists_ofNames
  unfold jobs
  dsimp only
  rw [h.present_eq h' hne hnames, ← h.isDir_eq h' hne hnames]
  by_cases hdir : s.isDir (.ofNames names) = true
  · rw [if_pos hdir, if_pos hdir, h.list_eq h' hfiles hne hnames hdir]
  · rw [if_neg hdir, if_neg hdir]

/-- The job is for a file, and its imports are first looked for in a directory that does not
climb. -/
structure Job.IsInner (job : Job) (files : List (List Raw × ByteArray)) : Prop where
  path : ∃ f ∈ files, job.path = .ofNames f.1
  base : job.base.IsInner

theorem isInner_of_mem_jobs (h : s.Shows files) (hfiles : IsLayout files) (hroot : root.Descends)
    (hjobs : jobs ⟨s, config⟩ root = .ok js) (hjob : job ∈ js) : job.IsInner files := by
  obtain ⟨names, hne, hnames, rfl⟩ := hroot.exists_ofNames
  unfold jobs at hjobs
  dsimp only at hjobs
  split_ifs at hjobs with hpresent hdir hext
  · obtain ⟨paths, hlist, hjs⟩ := Fallible.bind_eq_ok.mp hjobs
    cases hjs
    obtain ⟨p, hp, rfl⟩ := List.mem_map.mp hjob
    have hlisted := h.exists_of_mem_list hne hnames hdir (Fallible.mapError_eq_ok.mp hlist)
      (List.mem_filter.mp hp).1
    exact ⟨hlisted, Path.isInner_ofNames hnames⟩
  · cases hjobs
    obtain rfl := List.mem_singleton.mp hjob
    have hparent : ∀ s ∈ names.dropLast, IsName s :=
      fun s hs => hnames s (List.dropLast_subset _ hs)
    have hfile : s.HasFile (.ofNames names) :=
      ⟨hpresent, Bool.eq_false_iff.mpr hdir⟩
    obtain ⟨f, hf, rfl⟩ := (h.hasFile_iff hfiles hnames).mp hfile
    refine ⟨⟨f, hf, rfl⟩, ?_⟩
    dsimp only
    rw [Path.parent?_ofNames hne hnames, Option.getD_some]
    exact Path.isInner_ofNames hparent

theorem load_congr (h : s.Shows files) (h' : s'.Shows files) (hfiles : IsLayout files)
    (hinclude : ∀ dir ∈ config.includePaths, dir.IsInner) (hjob : job.IsInner files)
    (set : DescriptorSet) (bytes : ByteArray) :
    load ⟨s, config⟩ set job bytes = load ⟨s', config⟩ set job bytes := by
  have hagrees : (resolver ⟨s, config⟩ job).Agrees (resolver ⟨s', config⟩ job) :=
    Resolver.agrees_ofDirectories h h' hfiles (List.forall_mem_cons.mpr ⟨hjob.base, hinclude⟩)
  simp only [load, loadInto, loadOver_congr hagrees]

/-- Sources that show the same files do a job alike. -/
theorem perform_congr (h : s.Shows files) (h' : s'.Shows files) (hfiles : IsLayout files)
    (hinclude : ∀ dir ∈ config.includePaths, dir.IsInner) (hjob : job.IsInner files)
    (set : DescriptorSet) : perform ⟨s, config⟩ set job = perform ⟨s', config⟩ set job := by
  obtain ⟨f, hf, hpath⟩ := hjob.path
  have hload : load ⟨s, config⟩ set job = load ⟨s', config⟩ set job :=
    funext (load_congr h h' hfiles hinclude hjob set)
  have hread : s.read job.path = s'.read job.path := by
    rw [hpath, h.read f hf, h'.read f hf]
  simp only [perform, hread, hload]

theorem runRoot_congr (h : s.Shows files) (h' : s'.Shows files) (hfiles : IsLayout files)
    (hinclude : ∀ dir ∈ config.includePaths, dir.IsInner) (hroot : root.Descends)
    (report : BatchReport) :
    runRoot ⟨s, config⟩ report root = runRoot ⟨s', config⟩ report root := by
  rw [runRoot, runRoot, ← jobs_congr h h' hfiles hroot]
  cases hjobs : jobs ⟨s, config⟩ root with
  | error e => rfl
  | ok js =>
      have hjs :
          js.foldlM (runJob ⟨s, config⟩) report = js.foldlM (runJob ⟨s', config⟩) report := by
        refine Fallible.foldlM_congr_mem fun job hjob report => ?_
        rw [runJob, runJob, perform_congr h h' hfiles hinclude
          (isInner_of_mem_jobs h hfiles hroot hjobs hjob)]
        rfl
      exact congrArg (fun r => if limitReached ⟨s, config⟩ report then .ok report else r) hjs

end Batch

open Batch

/-- Sources that show the same files are one to a batch. -/
theorem compileAll_congr {files : List (List Raw × ByteArray)} {s s' : Source} {config : Config}
    {roots : List Path} (h : s.Shows files) (h' : s'.Shows files) (hfiles : IsLayout files)
    (hinclude : ∀ dir ∈ config.includePaths, dir.IsInner) (hroots : ∀ root ∈ roots, root.Descends) :
    compileAll s config roots = compileAll s' config roots := by
  have hrun : roots.foldlM (runRoot ⟨s, config⟩) ⟨.empty, []⟩ =
      roots.foldlM (runRoot ⟨s', config⟩) ⟨.empty, []⟩ :=
    Fallible.foldlM_congr_mem fun root hroot report =>
      runRoot_congr h h' hfiles hinclude (hroots root hroot) report
  rw [compileAll, compileAll, hrun]

/-- **A batch over a tree is the batch over its files in memory.**  If the tree has only the
directories its files lie in, the include paths do not climb, and the roots are written in
normal form and lead down, then whatever the settings, both batches come to the same set in the
same order with the same errors, or end with the same error. -/
theorem compileAll_tree_eq_table {t : Tree} {table : Table} (ht : t.IsTidy)
    (htable : table.HasFiles t.files) {config : Config}
    (hinclude : ∀ dir ∈ config.includePaths, dir.IsInner) {roots : List Path}
    (hroots : ∀ root ∈ roots, root.Descends) :
    compileAll t.source config roots = compileAll table.source config roots :=
  compileAll_congr ht.shows_source (htable.shows_source ht.toIsLayout) ht.toIsLayout hinclude
    hroots

/-- A file at the top imports one that only an include path has, and a directory holds a file
with a directory beside it whose name begins like the file's. -/
def shelf : Tree where
  files := [(["d", "a-b", "c.proto"], importsOf []), (["main.proto"], importsOf ["x.proto"]),
    (["lib", "x.proto"], importsOf []), (["d", "a.proto"], importsOf ["a-b/c.proto", "gone"]),
    (["d", "README"], importsOf [])]
  dirs := [["lib"], ["d", "a-b"], ["d"]]

/-- The files of the tree, put in by other spellings and in another order. -/
def shelved : Table := .ofList
  [(⟨"./main.proto"⟩, importsOf ["x.proto"]), (⟨"lib/../lib//x.proto"⟩, importsOf []),
    (⟨"d/README"⟩, importsOf []), (⟨"d/a.proto"⟩, importsOf ["a-b/c.proto", "gone"]),
    (⟨"d/a-b/c.proto/."⟩, importsOf [])]

/-- Over a file, a directory with a failing file and a root that is missing the batches agree. -/
theorem shelf_tree_eq_table :
    let config : Config := { Config.default with
      mode := .bestEffort, includePaths := [⟨"d/../lib/"⟩] }
    let roots : List Path := [⟨"main.proto"⟩, ⟨"d"⟩, ⟨"gone"⟩]
    shelf.IsTidy ∧ shelved.HasFiles shelf.files ∧
    (∀ dir ∈ config.includePaths, dir.IsInner) ∧ (∀ root ∈ roots, root.Descends) ∧
    (compileAll shelved.source config roots).toOption.map (fun r =>
      (r.set.names, r.errors.length)) =
        some (["x.proto", "main.proto", "a-b/c.proto"], 2) ∧
    compileAll shelf.source config roots = compileAll shelved.source config roots := by
  intro config roots
  have htidy : shelf.IsTidy :=
    { below := by decide +kernel, isName := by decide +kernel, noNul := by decide +kernel,
      distinct := by decide +kernel, leaf := by decide +kernel, inhabited := by decide +kernel }
  have hfiles : shelved.HasFiles shelf.files :=
    Table.hasFiles_ofList htidy.distinct (by decide +kernel)
  have hinclude : ∀ dir ∈ config.includePaths, dir.IsInner :=
    List.forall_mem_singleton.mpr ⟨by decide +kernel, by decide +kernel⟩
  have hroots : ∀ root ∈ roots, root.Descends := by
    have hall : ∀ root ∈ roots, root.normalize = root ∧ root.isAbsolute = false ∧
        root.raw ≠ [] ∧ .up ∉ root.components := by decide +kernel
    intro root hroot
    obtain ⟨hnormal, hrelative, hnonempty, hnoUp⟩ := hall root hroot
    exact ⟨hnormal, hrelative, hnonempty, hnoUp⟩
  exact ⟨htidy, hfiles, hinclude, hroots, by decide +kernel,
    compileAll_tree_eq_table htidy hfiles hinclude hroots⟩

end Schemata
