/-
A batch with more directories to search.

A search goes through its directories in order and stops at the first file, so directories
behind those there are never looked at where something was found before.  A file that loads
has found all its imports; with more directories it finds the same ones, and loads alike.  A
batch without errors is made of such files only, and of roots, which no search has a part in.

Where something was not found, the search does go on.  So this is about builds that succeed:
one that fails may well succeed with more directories.
-/
import Schemata.Proofs.Batch.Modes
import Schemata.Proofs.Loading.Extension
import Schemata.Proofs.Resolver.Directories

namespace Schemata

/-! ### Imports -/

namespace Resolver

variable {source : Source} {dirs dirs' : List Path}

/-- Directories in which all is found that others lead to find more. -/
theorem extends_of_located
    (h : ∀ key p, locate? source dirs key = some p → locate? source dirs' key = some p) :
    (ofDirectories source dirs').Extends (ofDirectories source dirs) where
  finds key bytes hbytes := by
    cases hlocate : locate? source dirs key with
    | none =>
        rw [resolve_of_not_located source hlocate] at hbytes
        cases hbytes
    | some p =>
        rw [resolve_of_located source hlocate] at hbytes
        rw [resolve_of_located source (h key p hlocate)]
        exact hbytes
  depth := le_refl _

/-- Directories behind those there only add to what is found. -/
theorem extends_append (dirs more : List Path) :
    (ofDirectories source (dirs ++ more)).Extends (ofDirectories source dirs) :=
  extends_of_located fun _ _ h => locate?_append h more

end Resolver

/-! ### Files -/

namespace Batch

/-- The second job is the first one with a resolver that finds more. -/
structure Widens (ctx ctx' : Context) (job job' : Job) : Prop where
  source : ctx'.source = ctx.source
  nesting : ctx'.config.nesting = ctx.config.nesting
  name : job'.name = job.name
  path : job'.path = job.path
  resolver : (resolver ctx' job').Extends (resolver ctx job)

namespace Widens

variable {ctx ctx' : Context} {job job' : Job} {set set' : DescriptorSet}

/-- A file that is loaded is loaded alike by a resolver that finds more. -/
theorem load {bytes : ByteArray} (hwidens : Widens ctx ctx' job job')
    (h : Batch.load ctx set job bytes = .ok set') : Batch.load ctx' set job' bytes = .ok set' := by
  rw [load_eq, Fallible.map_eq_ok] at h ⊢
  obtain ⟨⟨⟩, hok, hset⟩ := h
  have hsame :=
    loadOver_of_extends hwidens.resolver .empty ctx.config.nesting job.name bytes set hok
  rw [hwidens.nesting, hwidens.name]
  exact ⟨(), (congrArg Loading.Outcome.result hsame).trans hok,
    (congrArg (fun o => o.progress.set) hsame).trans hset⟩

/-- A job that is done is done alike by a resolver that finds more. -/
theorem perform (hwidens : Widens ctx ctx' job job') (h : Batch.perform ctx set job = .ok set') :
    Batch.perform ctx' set job' = .ok set' := by
  rw [Batch.perform] at h ⊢
  rw [hwidens.name, hwidens.path, hwidens.source]
  split at h
  · rename_i hname
    rw [if_pos hname]
    exact h
  · rename_i hname
    obtain ⟨bytes, hread, hload⟩ := Fallible.bind_eq_ok.mp h
    rw [if_neg hname]
    exact Fallible.bind_eq_ok.mpr ⟨bytes, hread, hwidens.load hload⟩

end Widens

/-- Whatever the roots stand for, it is done alike with more directories to search. -/
theorem attempt_more_directories {source : Source} {config : Config} (more : List Path)
    {set set' : DescriptorSet} {item : Item}
    (h : attempt ⟨source, config⟩ set item = .ok set') :
    attempt ⟨source, { config with includePaths := config.includePaths ++ more }⟩ set item =
      .ok set' := by
  cases item with
  | refused root e => cases h
  | file job =>
      have hwidens : Widens ⟨source, config⟩
          ⟨source, { config with includePaths := config.includePaths ++ more }⟩ job job :=
        ⟨rfl, rfl, rfl, rfl, Resolver.extends_append (job.base :: config.includePaths) more⟩
      exact hwidens.perform h

/-- In either mode a batch without errors comes to the same with more directories to search. -/
theorem compileAll_clean_more_directories {source : Source} {config : Config} {roots : List Path}
    {set : DescriptorSet} (more : List Path)
    (h : compileAll source config roots = .ok ⟨set, []⟩) :
    compileAll source { config with includePaths := config.includePaths ++ more } roots =
      .ok ⟨set, []⟩ := by
  obtain ⟨hvalid, hset⟩ := compileAll_clean_iff.mp h
  -- Neither the check of the settings nor the plan looks at the include paths.
  have hplan : plan ⟨source, { config with includePaths := config.includePaths ++ more }⟩ roots =
      plan ⟨source, config⟩ roots := rfl
  refine compileAll_clean_iff.mpr ⟨hvalid, ?_⟩
  rw [hplan]
  exact Fallible.foldlM_eq_ok_of_mem (fun _ _ _ _ => attempt_more_directories more) hset

end Batch

/-- **Searching more directories changes no build that succeeds.**  A batch that fails fast and
comes to a report comes to the same report with more directories behind its include paths;
and so does a file compiled with its imports from include directories, which asks for the same
imports as before. -/
theorem compileAll_more_directories (source : Source) (more : List Path) :
    (∀ (config : Config) (roots : List Path) (report : BatchReport), config.mode = .failFast →
      compileAll source config roots = .ok report →
      compileAll source { config with includePaths := config.includePaths ++ more } roots =
        .ok report) ∧
    (∀ (dirs : List Path) (nesting : Nesting) (name : String) (bytes : ByteArray)
      (set : DescriptorSet),
      (compile (.ofDirectories source dirs) nesting name bytes).result = .ok set →
      compile (.ofDirectories source (dirs ++ more)) nesting name bytes =
        compile (.ofDirectories source dirs) nesting name bytes) := by
  constructor
  · rintro config roots ⟨set, errors⟩ hmode h
    obtain ⟨-, hclean, -⟩ := (Batch.compileAll_failFast_iff hmode).mp h
    obtain rfl : errors = [] := hclean
    exact Batch.compileAll_clean_more_directories more h
  · intro dirs nesting name bytes set h
    obtain ⟨⟨⟩, hok, -⟩ := Fallible.map_eq_ok.mp h
    have hsame : loadInto (.ofDirectories source (dirs ++ more)) nesting name bytes .empty =
        loadInto (.ofDirectories source dirs) nesting name bytes .empty :=
      loadOver_of_extends (Resolver.extends_append dirs more) .empty nesting name bytes .empty hok
    rw [compile, compile, hsame]

/-- A file, and two of the name it imports in directories of their own, one of which fails. -/
def vendored : Table := .ofList
  [(⟨"app/a.proto"⟩, importsOf ["v.proto"]), (⟨"x/v.proto"⟩, importsOf []),
    (⟨"y/v.proto"⟩, importsOf ["gone.proto"])]

/-- The file that fails stands behind the one that is found, and is not looked at. -/
theorem vendored_more_directories :
    let config : Config := { Config.default with includePaths := [⟨"x"⟩] }
    let set : DescriptorSet := ⟨[importing "v.proto" [], importing "a.proto" ["v.proto"]]⟩
    let R := fun dirs => Resolver.ofDirectories vendored.source dirs
    config.mode = .failFast ∧
    compileAll vendored.source config [⟨"app"⟩] = .ok ⟨set, []⟩ ∧
    compileAll vendored.source { config with includePaths := [⟨"x"⟩, ⟨"y"⟩] } [⟨"app"⟩] =
      .ok ⟨set, []⟩ ∧
    (compile (R [⟨"x"⟩]) .nested "a.proto" (importsOf ["v.proto"])).result = .ok set ∧
    compile (R [⟨"x"⟩, ⟨"y"⟩]) .nested "a.proto" (importsOf ["v.proto"]) =
      compile (R [⟨"x"⟩]) .nested "a.proto" (importsOf ["v.proto"]) := by
  intro config set R
  have hbatch : compileAll vendored.source config [⟨"app"⟩] = .ok ⟨set, []⟩ :=
    Fallible.toOption_eq_some.mp (by decide +kernel)
  have hfile : (compile (R [⟨"x"⟩]) .nested "a.proto" (importsOf ["v.proto"])).result = .ok set :=
    Fallible.toOption_eq_some.mp (by decide +kernel)
  obtain ⟨hbatches, hfiles⟩ := compileAll_more_directories vendored.source [⟨"y"⟩]
  exact ⟨rfl, hbatch, hbatches config [⟨"app"⟩] ⟨set, []⟩ rfl hbatch, hfile,
    hfiles [⟨"x"⟩] .nested "a.proto" (importsOf ["v.proto"]) set hfile⟩

end Schemata
