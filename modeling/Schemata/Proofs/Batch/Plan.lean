/-
A batch as one run over a plan.

Roots stand for files, and a batch takes on the files one after the other; where the next root
begins makes no difference to it.  So a batch is one run over a list of items that source and
settings fix beforehand.  A root that stands for no files is an item as well, one that always
fails.

`Performs` says all that can come of a file, in either mode: the set it is taken on with, or
that set with the closure of the file behind it, or an error.  That a finished set names no
file twice and is closed follows from this alone.
-/
import Schemata.Batch
import Schemata.Proofs.Descriptor.Imports
import Schemata.Proofs.Loading.Known

namespace Schemata.Batch

open Loading Descriptor Fallible

/-! ### The plan -/

/-- What a batch takes on: a file, or a root that stands for no files and why. -/
inductive Item where
  | file (job : Job)
  | refused (root : Path) (e : Error)

/-- What a root stands for. -/
def itemsOf (ctx : Context) (root : Path) : List Item :=
  match jobs ctx root with
  | .ok js => js.map .file
  | .error e => [.refused root e]

/-- All that a batch takes on, in order. -/
def plan (ctx : Context) (roots : List Path) : List Item := roots.flatMap (itemsOf ctx)

theorem mem_plan {ctx : Context} {roots : List Path} {root : Path} {item : Item}
    (hroot : root ∈ roots) (hitem : item ∈ itemsOf ctx root) : item ∈ plan ctx roots :=
  List.mem_flatMap.mpr ⟨root, hroot, hitem⟩

/-- A directory stands for the schema files it lists, each named by its path from there. -/
theorem itemsOf_directory {ctx : Context} {root : Path} {paths : List Path}
    (hpresent : ctx.source.present root = true) (hdir : ctx.source.isDir root = true)
    (hlist : ctx.source.list root = .ok paths) :
    itemsOf ctx root = (paths.filter ctx.config.matchesExtension).map fun path =>
      .file ⟨root.relativeName path, path, root⟩ := by
  have hjobs : jobs ctx root = .ok ((paths.filter ctx.config.matchesExtension).map fun path =>
      ⟨root.relativeName path, path, root⟩) := by
    rw [jobs, if_neg (by simp [hpresent]), if_pos hdir, hlist]
    rfl
  rw [itemsOf, hjobs]
  exact List.map_map

/-- The set with an item done, or why the item fails. -/
def attempt (ctx : Context) (set : DescriptorSet) : Item → Except Error DescriptorSet
  | .file job => perform ctx set job
  | .refused _ e => .error e

/-- Takes on one item. -/
def runItem (ctx : Context) (report : BatchReport) (item : Item) : Except Error BatchReport :=
  if limitReached ctx report then .ok report
  else
    match attempt ctx report.set item with
    | .ok set => .ok { report with set }
    | .error e => fail ctx report e

section

variable {ctx : Context} {report : BatchReport}

/-- Steps that hand a report on leave it as it is. -/
theorem foldlM_of_idle {α : Type} {step : BatchReport → α → Except Error BatchReport}
    (hstep : ∀ x, step report x = .ok report) (xs : List α) :
    xs.foldlM step report = .ok report := by
  induction xs with
  | nil => rfl
  | cons x xs ih => exact foldlM_cons_eq_ok.mpr ⟨report, hstep x, ih⟩

/-- Taking on a file is doing its job. -/
theorem runItem_file (ctx : Context) (report : BatchReport) (job : Job) :
    runItem ctx report (.file job) = runJob ctx report job := rfl

/-- A root is run by running what it stands for. -/
theorem runRoot_eq (ctx : Context) (report : BatchReport) (root : Path) :
    runRoot ctx report root = (itemsOf ctx root).foldlM (runItem ctx) report := by
  by_cases hlimit : limitReached ctx report = true
  · rw [runRoot, if_pos hlimit]
    exact (foldlM_of_idle (fun item => by rw [runItem, if_pos hlimit]) _).symm
  · rw [runRoot, if_neg hlimit, itemsOf]
    cases jobs ctx root with
    | ok js =>
        simp only [List.foldlM_map, runItem_file]
    | error e =>
        have hitem : runItem ctx report (.refused root e) = fail ctx report e := by
          rw [runItem, if_neg hlimit]
          rfl
        rw [List.foldlM_cons, hitem]
        exact (bind_pure (fail ctx report e)).symm

/-- **A batch is one run over its plan.** -/
theorem compileAll_eq {source : Source} {config : Config} (hvalid : config.validate = .ok ())
    (roots : List Path) :
    compileAll source config roots =
      (plan ⟨source, config⟩ roots).foldlM (runItem ⟨source, config⟩) ⟨.empty, []⟩ := by
  have hrun : ∀ report, roots.foldlM (runRoot ⟨source, config⟩) report =
      (plan ⟨source, config⟩ roots).foldlM (runItem ⟨source, config⟩) report := by
    intro report
    rw [plan]
    induction roots generalizing report with
    | nil => rfl
    | cons root roots ih =>
        rw [List.foldlM_cons, List.flatMap_cons, List.foldlM_append, runRoot_eq]
        exact congrArg _ (funext ih)
  rw [← hrun]
  show (config.validate >>= fun _ => _) = _
  rw [hvalid]
  rfl

/-- A run that fails fast does its items one after the other, all of them or none. -/
theorem foldlM_runItem_failFast (hmode : ctx.config.mode = .failFast) (items : List Item) :
    items.foldlM (runItem ctx) report =
      (items.foldlM (attempt ctx) report.set).map fun set => { report with set } := by
  have hlimit : ∀ report, limitReached ctx report = false := by simp [limitReached, hmode]
  induction items generalizing report with
  | nil => rfl
  | cons item items ih =>
      rw [List.foldlM_cons, List.foldlM_cons, runItem, if_neg (by simp [hlimit])]
      cases attempt ctx report.set item with
      | ok set => exact ih
      | error e =>
          show (fail ctx report e >>= fun _ => _) = _
          rw [fail, hmode]
          rfl

/-- **A batch that fails fast succeeds if every item does, each on the set of those before.** -/
theorem compileAll_failFast_iff {source : Source} {config : Config} {roots : List Path}
    (hmode : config.mode = .failFast) :
    compileAll source config roots = .ok report ↔
      config.validate = .ok () ∧ report.errors = [] ∧
      (plan ⟨source, config⟩ roots).foldlM (attempt ⟨source, config⟩) .empty = .ok report.set := by
  constructor
  · intro h
    have hvalid : config.validate = .ok () := by
      obtain ⟨⟨⟩, hvalid, -⟩ := bind_eq_ok.mp h
      exact hvalid
    rw [compileAll_eq hvalid, foldlM_runItem_failFast hmode, map_eq_ok] at h
    obtain ⟨set, hset, rfl⟩ := h
    exact ⟨hvalid, rfl, hset⟩
  · rintro ⟨hvalid, herrors, hset⟩
    rw [compileAll_eq hvalid, foldlM_runItem_failFast hmode, map_eq_ok]
    exact ⟨report.set, hset, by rw [← herrors]⟩

end

/-! ### One file -/

section

variable {ctx : Context} {set set' : DescriptorSet}

/-- In either mode a file is loaded as if into the set. -/
theorem load_eq (ctx : Context) (set : DescriptorSet) (job : Job) (bytes : ByteArray) :
    load ctx set job bytes =
      (loadInto (resolver ctx job) ctx.config.nesting job.name bytes set).result.map fun _ =>
        (loadInto (resolver ctx job) ctx.config.nesting job.name bytes set).progress.set := by
  rw [load]
  cases ctx.config.mode with
  | failFast => rfl
  | bestEffort =>
      obtain ⟨hresult, -⟩ :=
        loadInto_beside (resolver ctx job) ctx.config.nesting job.name bytes set
      rw [hresult, loadInto_eq_merge]

theorem perform_of_taken {job : Job} (hname : job.name ∈ set.names) :
    perform ctx set job = .ok set := by
  rw [perform, if_pos ((DescriptorSet.contains_iff set job.name).mpr hname)]

theorem perform_of_unread {job : Job} {fault : AccessFault} (hname : job.name ∉ set.names)
    (hread : ctx.source.read job.path = .error fault) :
    perform ctx set job = .error (ioError job.path fault) := by
  rw [perform, if_neg (mt (DescriptorSet.contains_iff set job.name).mp hname), hread]
  rfl

theorem perform_of_read {job : Job} {bytes : ByteArray} (hname : job.name ∉ set.names)
    (hread : ctx.source.read job.path = .ok bytes) :
    perform ctx set job =
      (loadInto (resolver ctx job) ctx.config.nesting job.name bytes set).result.map fun _ =>
        (loadInto (resolver ctx job) ctx.config.nesting job.name bytes set).progress.set := by
  rw [perform, if_neg (mt (DescriptorSet.contains_iff set job.name).mp hname), hread]
  exact load_eq ctx set job bytes

/-- What can come of a file that is taken on with a set. -/
inductive Performs (ctx : Context) (set : DescriptorSet) (job : Job) :
    Except Error DescriptorSet → Prop where
  /-- Its name is taken. -/
  | taken (hname : job.name ∈ set.names) : Performs ctx set job (.ok set)
  /-- It cannot be read. -/
  | unread {fault : AccessFault} (hname : job.name ∉ set.names)
      (hread : ctx.source.read job.path = .error fault) :
      Performs ctx set job (.error (ioError job.path fault))
  /-- It cannot be loaded. -/
  | failed {bytes : ByteArray} {e : Error} (hname : job.name ∉ set.names)
      (hread : ctx.source.read job.path = .ok bytes)
      (hload : (loadInto (resolver ctx job) ctx.config.nesting job.name bytes set).result =
        .error e) : Performs ctx set job (.error e)
  /-- It is loaded. -/
  | loaded {bytes : ByteArray} (hname : job.name ∉ set.names)
      (hread : ctx.source.read job.path = .ok bytes)
      (hload : (loadInto (resolver ctx job) ctx.config.nesting job.name bytes set).result =
        .ok ()) :
      Performs ctx set job
        (.ok (loadInto (resolver ctx job) ctx.config.nesting job.name bytes set).progress.set)

theorem performs (ctx : Context) (set : DescriptorSet) (job : Job) :
    Performs ctx set job (perform ctx set job) := by
  by_cases hname : job.name ∈ set.names
  · rw [perform_of_taken hname]
    exact .taken hname
  cases hread : ctx.source.read job.path with
  | error fault =>
      rw [perform_of_unread hname hread]
      exact .unread hname hread
  | ok bytes =>
      rw [perform_of_read hname hread]
      cases hload : (loadInto (resolver ctx job) ctx.config.nesting job.name bytes set).result with
      | error e => exact .failed hname hread hload
      | ok u => exact .loaded hname hread hload

theorem performs_of_attempt {job : Job} (h : attempt ctx set (.file job) = .ok set') :
    Performs ctx set job (.ok set') := by
  have hperforms := performs ctx set job
  rwa [show perform ctx set job = .ok set' from h] at hperforms

/-- What a file that is done does to the set: nothing, or it adds what it leads to. -/
inductive Performed (ctx : Context) (set : DescriptorSet) (job : Job) : DescriptorSet → Prop where
  | taken (hname : job.name ∈ set.names) : Performed ctx set job set
  | added {bytes : ByteArray} {q : Progress} {new : List File} (hname : job.name ∉ set.names)
      (hread : ctx.source.read job.path = .ok bytes)
      (hadds : Adds ⟨job.name, bytes, resolver ctx job, ctx.config.nesting⟩ .empty [job.name]
        ⟨set, []⟩ q new) : Performed ctx set job q.set

theorem performed_of_attempt {job : Job} (h : attempt ctx set (.file job) = .ok set') :
    Performed ctx set job set' := by
  cases performs_of_attempt h with
  | taken hname => exact .taken hname
  | loaded hname hread hload =>
      obtain ⟨new, hadds⟩ := loadInto_adds hname hload
      exact .added hname hread hadds

/-- The set names no file twice, and each of its files stands behind those it imports. -/
structure Sound (set : DescriptorSet) : Prop where
  nodup : set.names.Nodup
  closed : set.ImportClosed

theorem sound_empty : Sound .empty := ⟨List.nodup_nil, DescriptorSet.importClosed_empty⟩

/-- What comes of an item in the end goes behind the set. -/
theorem files_prefix_of_attempt {item : Item} (hitem : attempt ctx set item = .ok set') :
    set.files <+: set'.files := by
  cases item with
  | refused root e => cases hitem
  | file job =>
      cases performed_of_attempt hitem with
      | taken => exact List.prefix_rfl
      | added hname hread hadds => exact hadds.files ▸ List.prefix_append _ _

/-- What comes of an item in the end is sound if the set was. -/
theorem Sound.attempt {item : Item} (h : Sound set) (hitem : attempt ctx set item = .ok set') :
    Sound set' := by
  cases item with
  | refused root e => cases hitem
  | file job =>
      cases performed_of_attempt hitem with
      | taken => exact h
      | added hname hread hadds =>
          have hclosure := hadds.isClosure hname
          refine ⟨?_, ?_⟩
          · rw [hadds.names_eq]
            refine List.nodup_append.mpr ⟨h.nodup, hclosure.nodup, ?_⟩
            rintro x hx y hy rfl
            obtain ⟨f, hf, rfl⟩ := List.mem_map.mp hy
            exact hclosure.fresh f hf hx
          · rw [hadds.set_eq]
            exact h.closed.append hclosure.grounded

/-- What comes of all items goes behind the set. -/
theorem files_prefix_of_foldlM {items : List Item}
    (hitems : items.foldlM (attempt ctx) set = .ok set') : set.files <+: set'.files := by
  refine foldlM_preserves (P := fun s : DescriptorSet => set.files <+: s.files) ?_
    List.prefix_rfl hitems
  intro s t item hs hitem
  exact hs.trans (files_prefix_of_attempt hitem)

/-- What comes of all items is sound if the set was. -/
theorem Sound.foldlM_attempt {items : List Item} (h : Sound set)
    (hitems : items.foldlM (Batch.attempt ctx) set = .ok set') : Sound set' :=
  foldlM_preserves (fun hs hitem => hs.attempt hitem) h hitems

/-- The name of a file that is done is taken. -/
theorem name_mem_of_attempt {job : Job} (h : attempt ctx set (.file job) = .ok set') :
    job.name ∈ set'.names := by
  cases performed_of_attempt h with
  | taken hname => exact hname
  | added hname hread hadds =>
      have hlast := List.mem_of_getLast? (hadds.isClosure hname).last
      rw [hadds.names_eq]
      exact List.mem_append_right _ hlast

/-- The names of files that are done are taken at the end. -/
theorem name_mem_of_foldlM {job : Job} {items : List Item} (hjob : .file job ∈ items)
    (h : items.foldlM (attempt ctx) set = .ok set') : job.name ∈ set'.names := by
  induction items generalizing set with
  | nil => exact absurd hjob List.not_mem_nil
  | cons item items ih =>
      obtain ⟨middle, hitem, hitems⟩ := foldlM_cons_eq_ok.mp h
      rcases List.mem_cons.mp hjob with rfl | hjob
      · exact ((files_prefix_of_foldlM hitems).map (·.name)).subset (name_mem_of_attempt hitem)
      · exact ih hjob hitems

end

end Schemata.Batch
