/-
Compiling many files to one set.

Roots are taken in the order given.  A directory gives all its schema files, named by
their paths from it; a file gives itself, named by its file name.  A file whose name
the set has is passed over unread.  Imports are looked for beside the root first and
then in the include paths of the settings.

What happens to an error is the mode's to say.  Failing fast, it ends the run and
nothing else is answered.  With best effort, the file leaves no trace in the set, not
even of its imports; its error is kept, and once as many as allowed are kept the run
goes no further.
-/
import Schemata.Config
import Schemata.Loading

namespace Schemata

/-- What a batch came to. -/
structure BatchReport where
  set : DescriptorSet
  errors : List Error
deriving DecidableEq, Repr, Inhabited

/-- No file failed. -/
def BatchReport.isClean (r : BatchReport) : Bool := r.errors.isEmpty

namespace Batch

/-- What a run depends on and does not change. -/
structure Context where
  source : Source
  config : Config

/-- A file to be compiled, the name it gets, and the directory its imports are looked
for in first. -/
structure Job where
  name : String
  path : Path
  base : Path
deriving DecidableEq, Repr

/-- A failure of the source at a path, as an error. -/
def ioError (path : Path) (fault : AccessFault) : Error := .io path.text fault.message

/-- The schema files a root stands for. -/
def jobs (ctx : Context) (root : Path) : Except Error (List Job) :=
  if ¬ctx.source.present root then .error (.io root.text "input path does not exist")
  else if ctx.source.isDir root then do
    let paths ← (ctx.source.list root).mapError (ioError root)
    return (paths.filter ctx.config.matchesExtension).map fun path =>
      ⟨root.relativeName path, path, root⟩
  else if ¬ctx.config.matchesExtension root then
    .error (.io root.text ("not a ." ++ ctx.config.extension ++ " file"))
  else .ok [⟨(root.fileName?.getD []).lossy, root, root.parent?.getD ⟨"."⟩⟩]

/-- Who answers for the imports of a job's file. -/
def resolver (ctx : Context) (job : Job) : Resolver :=
  .ofDirectories ctx.source (job.base :: ctx.config.includePaths)

/-- The set with a file and its imports added, or why the file fails. -/
def load (ctx : Context) (set : DescriptorSet) (job : Job) (bytes : ByteArray) :
    Except Error DescriptorSet :=
  match ctx.config.mode with
  | .failFast =>
    let outcome := loadInto (resolver ctx job) ctx.config.nesting job.name bytes set
    outcome.result.map fun _ => outcome.progress.set
  | .bestEffort =>
    let outcome := loadOver set (resolver ctx job) ctx.config.nesting job.name bytes .empty
    outcome.result.map fun _ => set.merge outcome.progress.set

/-- The set with a job done, unless the job's name is taken. -/
def perform (ctx : Context) (set : DescriptorSet) (job : Job) : Except Error DescriptorSet :=
  if set.contains job.name then .ok set
  else do
    let bytes ← (ctx.source.read job.path).mapError (ioError job.path)
    load ctx set job bytes

/-- Keeps an error, or ends the run with it. -/
def fail (ctx : Context) (report : BatchReport) (e : Error) : Except Error BatchReport :=
  match ctx.config.mode with
  | .failFast => .error e
  | .bestEffort => .ok { report with errors := report.errors ++ [e] }

/-- As many errors are kept as allowed. -/
def limitReached (ctx : Context) (report : BatchReport) : Bool :=
  ctx.config.mode = .bestEffort && ctx.config.maxErrors ≤ report.errors.length

/-- Does one job. -/
def runJob (ctx : Context) (report : BatchReport) (job : Job) : Except Error BatchReport :=
  if limitReached ctx report then .ok report
  else
    match perform ctx report.set job with
    | .ok set => .ok { report with set }
    | .error e => fail ctx report e

/-- Does the jobs of one root. -/
def runRoot (ctx : Context) (report : BatchReport) (root : Path) : Except Error BatchReport :=
  if limitReached ctx report then .ok report
  else
    match jobs ctx root with
    | .ok js => js.foldlM (runJob ctx) report
    | .error e => fail ctx report e

end Batch

/-- Compiles all schema files of the roots. -/
def compileAll (source : Source) (config : Config) (roots : List Path) :
    Except Error BatchReport := do
  config.validate
  roots.foldlM (Batch.runRoot ⟨source, config⟩) ⟨.empty, []⟩

end Schemata
