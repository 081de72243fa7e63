/-
The two modes of a batch.

Failing fast, a file is loaded into the set of the run; with best effort it is loaded
beside that set and merged in afterwards.  Either way the same file fails with the same
error or adds the same files, so up to the first error the two runs are one and the same.
There the first run ends, and the second one goes on with that error at the head of those
it keeps.
-/
import Schemata.Proofs.Batch.Plan

namespace Schemata.Batch

/-- The same run in another mode. -/
def Context.inMode (ctx : Context) (mode : BatchMode) : Context :=
  { ctx with config := { ctx.config with mode } }

/-! ### One file -/

section

variable (ctx : Context) {set : DescriptorSet} {job : Job}

/-- A file is loaded alike in both modes. -/
theorem load_inMode (bytes : ByteArray) :
    load (ctx.inMode .failFast) set job bytes = load (ctx.inMode .bestEffort) set job bytes := by
  rw [load_eq, load_eq]
  rfl

/-- A job is performed alike in both modes. -/
theorem perform_inMode (set : DescriptorSet) (job : Job) :
    perform (ctx.inMode .failFast) set job = perform (ctx.inMode .bestEffort) set job := by
  rw [perform, perform]
  exact congrArg _ (congrArg _ (funext fun bytes => load_inMode ctx bytes))

end

/-! ### The runs side by side -/

/-- What a run that fails fast and one with best effort come to, from the same clean
report. -/
inductive Answers : Except Error BatchReport → Except Error BatchReport → Prop where
  | clean {r : BatchReport} (hclean : r.errors = []) : Answers (.ok r) (.ok r)
  | failed {e : Error} {r : BatchReport} (hfirst : r.errors.head? = some e) :
      Answers (.error e) (.ok r)

/-- The step never fails, and it keeps the first error. -/
def KeepsFirst {α : Type} (step : BatchReport → α → Except Error BatchReport) : Prop :=
  ∀ r x e, r.errors.head? = some e → ∃ r', step r x = .ok r' ∧ r'.errors.head? = some e

theorem KeepsFirst.foldlM {α : Type} {step : BatchReport → α → Except Error BatchReport}
    (h : KeepsFirst step) : KeepsFirst fun r (xs : List α) => xs.foldlM step r := by
  intro r xs e hr
  induction xs generalizing r with
  | nil => exact ⟨r, rfl, hr⟩
  | cons x xs ih =>
      obtain ⟨m, hm, hfirst⟩ := h r x e hr
      obtain ⟨r', hr', hlast⟩ := ih m hfirst
      exact ⟨r', Fallible.foldlM_cons_eq_ok.mpr ⟨m, hm, hr'⟩, hlast⟩

/-- Runs that answer alike at every step answer alike in the end. -/
theorem Answers.foldlM {α : Type} {fast best : BatchReport → α → Except Error BatchReport}
    (hstep : ∀ r x, r.errors = [] → Answers (fast r x) (best r x)) (hkeeps : KeepsFirst best)
    (xs : List α) : ∀ r, r.errors = [] → Answers (xs.foldlM fast r) (xs.foldlM best r) := by
  induction xs with
  | nil => exact fun r hr => .clean hr
  | cons x xs ih =>
      intro r hr
      have hx := hstep r x hr
      rw [List.foldlM_cons, List.foldlM_cons]
      generalize fast r x = a at hx
      generalize best r x = b at hx
      cases hx with
      | clean hclean => exact ih _ hclean
      | @failed e m hfirst =>
          obtain ⟨r', hr', hlast⟩ := hkeeps.foldlM m xs e hfirst
          show Answers (.error e) (xs.foldlM best m)
          rw [show xs.foldlM best m = .ok r' from hr']
          exact .failed hlast

section

variable (ctx : Context)

/-- A run that has kept no error goes on. -/
theorem limitReached_of_clean {mode : BatchMode} {r : BatchReport} (hmax : 0 < ctx.config.maxErrors)
    (hr : r.errors = []) : limitReached (ctx.inMode mode) r = false := by
  have hlt : ¬ ctx.config.maxErrors ≤ 0 := by omega
  simp [limitReached, Context.inMode, hr, hlt]

theorem answers_fail {r : BatchReport} (hr : r.errors = []) (e : Error) :
    Answers (fail (ctx.inMode .failFast) r e) (fail (ctx.inMode .bestEffort) r e) :=
  .failed (by simp [hr])

theorem keepsFirst_fail : KeepsFirst (fail (ctx.inMode .bestEffort)) := by
  intro r e first hr
  refine ⟨_, rfl, ?_⟩
  rw [List.head?_append, hr]
  rfl

theorem answers_runJob (hmax : 0 < ctx.config.maxErrors) (r : BatchReport) (job : Job)
    (hr : r.errors = []) :
    Answers (runJob (ctx.inMode .failFast) r job) (runJob (ctx.inMode .bestEffort) r job) := by
  rw [runJob, runJob, limitReached_of_clean ctx hmax hr, limitReached_of_clean ctx hmax hr,
    if_neg (by simp), if_neg (by simp), perform_inMode]
  cases perform (ctx.inMode .bestEffort) r.set job with
  | ok set => exact .clean hr
  | error e => exact answers_fail ctx hr e

theorem keepsFirst_runJob : KeepsFirst (runJob (ctx.inMode .bestEffort)) := by
  intro r job e hr
  unfold runJob
  split
  · exact ⟨r, rfl, hr⟩
  · split
    · exact ⟨_, rfl, hr⟩
    · exact keepsFirst_fail ctx r _ e hr

/-- **From a clean report a root answers alike in both modes.** -/
theorem answers_runRoot (hmax : 0 < ctx.config.maxErrors) (r : BatchReport) (root : Path)
    (hr : r.errors = []) :
    Answers (runRoot (ctx.inMode .failFast) r root) (runRoot (ctx.inMode .bestEffort) r root) := by
  have hjobs : jobs (ctx.inMode .failFast) root = jobs (ctx.inMode .bestEffort) root := rfl
  rw [runRoot, runRoot, limitReached_of_clean ctx hmax hr, limitReached_of_clean ctx hmax hr,
    if_neg (by simp), if_neg (by simp), hjobs]
  cases jobs (ctx.inMode .bestEffort) root with
  | ok js => exact Answers.foldlM (answers_runJob ctx hmax) (keepsFirst_runJob ctx) js r hr
  | error e => exact answers_fail ctx hr e

theorem keepsFirst_runRoot : KeepsFirst (runRoot (ctx.inMode .bestEffort)) := by
  intro r root e hr
  unfold runRoot
  split
  · exact ⟨r, rfl, hr⟩
  · split
    · exact (keepsFirst_runJob ctx).foldlM r _ e hr
    · exact keepsFirst_fail ctx r _ e hr

end

end Batch

/-! ### Whole batches -/

theorem Config.maxErrors_pos {config : Config} (h : config.validate = .ok ()) :
    0 < config.maxErrors := by
  unfold validate at h
  split at h
  · cases h
  · split at h
    · cases h
    · omega

namespace Batch

variable {ctx : Context}

/-- An error that does not end the run is kept. -/
theorem errors_ne_nil_of_fail {r r' : BatchReport} {e : Error} (h : fail ctx r e = .ok r') :
    r'.errors ≠ [] := by
  rw [fail] at h
  split at h <;> cases h
  simp

/-- A run that has kept an error does not lose it. -/
theorem errors_ne_nil_of_runItem {r r' : BatchReport} {item : Item} (hr : r.errors ≠ [])
    (h : runItem ctx r item = .ok r') : r'.errors ≠ [] := by
  rw [runItem] at h
  split at h
  · cases h
    exact hr
  · split at h
    · cases h
      exact hr
    · exact errors_ne_nil_of_fail h

/-- From a clean report a run ends clean if every item succeeds, each on the set of those
before. -/
theorem foldlM_runItem_clean (hmax : 0 < ctx.config.maxErrors) {items : List Item}
    {set set' : DescriptorSet} :
    items.foldlM (runItem ctx) ⟨set, []⟩ = .ok ⟨set', []⟩ ↔
      items.foldlM (attempt ctx) set = .ok set' := by
  induction items generalizing set with
  | nil =>
      constructor <;> intro h <;> cases h <;> rfl
  | cons item items ih =>
      have hlimit : limitReached ctx ⟨set, []⟩ = false :=
        show limitReached (ctx.inMode ctx.config.mode) ⟨set, []⟩ = false from
          limitReached_of_clean ctx hmax rfl
      rw [List.foldlM_cons, List.foldlM_cons, runItem, if_neg (Bool.eq_false_iff.mp hlimit)]
      cases attempt ctx set item with
      | ok m => exact ih
      | error e =>
          constructor
          · intro h
            obtain ⟨m, hm, hrest⟩ := Fallible.bind_eq_ok.mp h
            have hkept := Fallible.foldlM_preserves errors_ne_nil_of_runItem
              (errors_ne_nil_of_fail hm) hrest
            exact absurd rfl hkept
          · intro h
            cases h

/-- **In either mode a batch is clean if every item succeeds, each on the set of those before.** -/
theorem compileAll_clean_iff {source : Source} {config : Config} {roots : List Path}
    {set : DescriptorSet} :
    compileAll source config roots = .ok ⟨set, []⟩ ↔
      config.validate = .ok () ∧
      (plan ⟨source, config⟩ roots).foldlM (attempt ⟨source, config⟩) .empty = .ok set := by
  have hrun (hvalid : config.validate = .ok ()) : compileAll source config roots = .ok ⟨set, []⟩ ↔
      (plan ⟨source, config⟩ roots).foldlM (attempt ⟨source, config⟩) .empty = .ok set := by
    rw [compileAll_eq hvalid, foldlM_runItem_clean (Config.maxErrors_pos hvalid)]
  constructor
  · intro h
    obtain ⟨⟨⟩, hvalid, -⟩ := Fallible.bind_eq_ok.mp h
    exact ⟨hvalid, (hrun hvalid).mp h⟩
  · exact fun ⟨hvalid, hset⟩ => (hrun hvalid).mpr hset

end Batch

/-- **The modes agree.**  With valid settings a batch with best effort always reports.  It
reports no error if and only if the batch that fails fast succeeds, and then their sets are
the same; and an error the latter fails with is the first one reported. -/
theorem compileAll_modes_agree (source : Source) (config : Config) (roots : List Path)
    (hvalid : config.validate = .ok ()) :
    ∃ report, compileAll source { config with mode := .bestEffort } roots = .ok report ∧
      ((∃ r, compileAll source { config with mode := .failFast } roots = .ok r) ↔
        report.errors = []) ∧
      (∀ r, compileAll source { config with mode := .failFast } roots = .ok r →
        r.set = report.set) ∧
      (∀ e, compileAll source { config with mode := .failFast } roots = .error e →
        report.errors.head? = some e) := by
  let ctx : Batch.Context := ⟨source, config⟩
  have hcompile : ∀ mode, compileAll source { config with mode } roots =
      roots.foldlM (Batch.runRoot (ctx.inMode mode)) ⟨.empty, []⟩ := by
    intro mode
    show (config.validate >>= fun _ => _) = _
    rw [hvalid]
    rfl
  have hanswers := Batch.Answers.foldlM (Batch.answers_runRoot ctx (Config.maxErrors_pos hvalid))
    (Batch.keepsFirst_runRoot ctx) roots ⟨.empty, []⟩ rfl
  rw [hcompile, hcompile]
  generalize roots.foldlM (Batch.runRoot (ctx.inMode .failFast)) ⟨.empty, []⟩ = fast at hanswers ⊢
  generalize roots.foldlM (Batch.runRoot (ctx.inMode .bestEffort)) ⟨.empty, []⟩ = best
    at hanswers ⊢
  cases hanswers with
  | @clean r hclean =>
      refine ⟨r, rfl, ⟨fun _ => hclean, fun _ => ⟨r, rfl⟩⟩, ?_, ?_⟩
      · rintro r' hr'
        cases hr'
        rfl
      · rintro e he
        cases he
  | @failed e r hfirst =>
      refine ⟨r, rfl, ⟨?_, ?_⟩, ?_, ?_⟩
      · rintro ⟨r', hr'⟩
        cases hr'
      · intro hclean
        rw [hclean] at hfirst
        cases hfirst
      · rintro r' hr'
        cases hr'
      · rintro e' he'
        cases he'
        exact hfirst

/-- A directory with a file that fails between two that do not. -/
def mixed : Table := .ofList
  [(⟨"d/a.proto"⟩, importsOf ["c.proto"]), (⟨"d/b.proto"⟩, importsOf ["a.proto", "gone.proto"]),
    (⟨"d/c.proto"⟩, importsOf [])]

/-- The modes agree on the directory, and both meet the error. -/
theorem mixed_modes_agree :
    Config.default.validate = .ok () ∧
    (compileAll mixed.source { Config.default with mode := .bestEffort }
      [⟨"d"⟩]).toOption.map (·.set.names) = some ["c.proto", "a.proto"] ∧
    ∃ report,
      compileAll mixed.source { Config.default with mode := .bestEffort } [⟨"d"⟩] = .ok report ∧
      ((∃ r, compileAll mixed.source { Config.default with mode := .failFast } [⟨"d"⟩] = .ok r) ↔
        report.errors = []) ∧
      (∀ r, compileAll mixed.source { Config.default with mode := .failFast } [⟨"d"⟩] = .ok r →
        r.set = report.set) ∧
      (∀ e, compileAll mixed.source { Config.default with mode := .failFast } [⟨"d"⟩] = .error e →
        report.errors.head? = some e) :=
  have hvalid : Config.default.validate = .ok () := Fallible.eq_ok_of_isOk (by decide +kernel)
  ⟨hvalid, by decide +kernel, compileAll_modes_agree mixed.source .default [⟨"d"⟩] hvalid⟩

end Schemata
