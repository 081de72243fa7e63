/-
What a batch with best effort accounts for.

Such a batch always ends with a report.  It makes one attempt after the other, in the order of
its plan, and `Linked` ties each attempt to the one before it: an attempt begins with the
report the last one left.  One attempt changes either the set or the errors.  A file that fails
leaves no trace in the set, not even of imports that were finished before the failure, and
adds its error; a file that is done adds what it leads to and no error.

The attempts stop early only when as many errors are kept as allowed.  Otherwise the plan was
gone through to its end, and every file of it is in the set or has its error in the report.
-/
import Schemata.Proofs.Batch.Modes
import Schemata.Proofs.Batch.Plan

namespace Schemata

namespace Batch

/-! ### Attempts -/

/-- One item of a run, and the reports before it and after it. -/
structure Attempt where
  before : BatchReport
  item : Item
  after : BatchReport

namespace Attempt

variable (ctx : Context) (a : Attempt)

/-- What comes of the item. -/
def outcome : Except Error DescriptorSet := attempt ctx a.before.set a.item

/-- The error of an attempt that fails. -/
def error? : Option Error :=
  match a.outcome ctx with
  | .ok _ => none
  | .error e => some e

/-- The attempt is a step of the run, and changes either the set or the errors, whichever its
outcome calls for. -/
structure Atomic : Prop where
  step : runItem ctx a.before a.item = .ok a.after
  /-- A failure adds its error and leaves the set as it was. -/
  failed : ∀ e, a.outcome ctx = .error e → a.after = ⟨a.before.set, a.before.errors ++ [e]⟩
  /-- A success adds no error, and what it adds to the set goes behind what was there. -/
  done : ∀ set, a.outcome ctx = .ok set →
    a.after = ⟨set, a.before.errors⟩ ∧ a.before.set.files <+: set.files

end Attempt

/-- The attempts lead from one report to another, each from where the one before it ended. -/
inductive Linked : BatchReport → List Attempt → BatchReport → Prop where
  | nil (r : BatchReport) : Linked r [] r
  | cons {a : Attempt} {as : List Attempt} {r : BatchReport} (h : Linked a.after as r) :
      Linked a.before (a :: as) r

section

variable {ctx : Context} {attempts : List Attempt} {r r' : BatchReport}

/-- What every attempt keeps, a run keeps. -/
theorem Linked.preserves {P : BatchReport → Prop} (h : Linked r attempts r')
    (hstep : ∀ a ∈ attempts, P a.before → P a.after) (hr : P r) : P r' := by
  induction h with
  | nil => exact hr
  | cons _ ih =>
      exact ih (fun a ha => hstep a (List.mem_cons_of_mem _ ha)) (hstep _ List.mem_cons_self hr)

namespace Attempt.Atomic

variable {a : Attempt}

/-- An attempt takes no file out of the set. -/
theorem grows (h : a.Atomic ctx) : a.before.set.files <+: a.after.set.files := by
  cases houtcome : a.outcome ctx with
  | ok set =>
      obtain ⟨hafter, hfiles⟩ := h.done set houtcome
      rwa [hafter]
  | error e => simp [h.failed e houtcome]

/-- An attempt adds an error exactly if it fails. -/
theorem errors_after (h : a.Atomic ctx) :
    a.after.errors = a.before.errors ++ (a.error? ctx).toList := by
  cases houtcome : a.outcome ctx with
  | ok set => simp [(h.done set houtcome).1, error?, houtcome]
  | error e => simp [h.failed e houtcome, error?, houtcome]

/-- An attempt keeps the set sound. -/
theorem sound (h : a.Atomic ctx) (hset : Sound a.before.set) : Sound a.after.set := by
  cases houtcome : a.outcome ctx with
  | ok set =>
      rw [(h.done set houtcome).1]
      exact Sound.attempt hset houtcome
  | error e =>
      rw [h.failed e houtcome]
      exact hset

/-- A file that does not fail has its name taken afterwards. -/
theorem name_mem_or_failed {job : Job} (h : a.Atomic ctx) (hitem : a.item = .file job) :
    job.name ∈ a.after.set.names ∨ ∃ e, a.error? ctx = some e := by
  cases houtcome : a.outcome ctx with
  | error e => exact .inr ⟨e, by rw [error?, houtcome]⟩
  | ok set =>
      rw [(h.done set houtcome).1]
      rw [outcome, hitem] at houtcome
      exact .inl (name_mem_of_attempt houtcome)

end Attempt.Atomic

/-- What the set holds after an attempt, it holds at the end of the run. -/
theorem Linked.grows (h : Linked r attempts r') (hatomic : ∀ a ∈ attempts, a.Atomic ctx) :
    ∀ a ∈ attempts, a.after.set.files <+: r'.set.files := by
  induction h with
  | nil => simp
  | @cons a as r hrest ih =>
      have hlater : ∀ b ∈ as, b.Atomic ctx := fun b hb => hatomic b (List.mem_cons_of_mem _ hb)
      intro b hb
      rcases List.mem_cons.mp hb with rfl | hb
      · exact hrest.preserves (P := fun m => b.after.set.files <+: m.set.files)
          (fun c hc hm => hm.trans (hlater c hc).grows) List.prefix_rfl
      · exact ih hlater b hb

/-- The errors of a run are those of the attempts that fail. -/
theorem Linked.errors_eq (h : Linked r attempts r') (hatomic : ∀ a ∈ attempts, a.Atomic ctx) :
    r'.errors = r.errors ++ attempts.filterMap (·.error? ctx) := by
  induction h with
  | nil => simp
  | @cons a as r _ ih =>
      have hlater : ∀ b ∈ as, b.Atomic ctx := fun b hb => hatomic b (List.mem_cons_of_mem _ hb)
      rw [ih hlater, (hatomic a List.mem_cons_self).errors_after, List.append_assoc]
      cases herror : a.error? ctx <;> simp [herror]

/-! ### A run as a list of attempts -/

/-- With best effort an item below the limit is one attempt. -/
theorem exists_attempt (hmode : ctx.config.mode = .bestEffort)
    (hlimit : limitReached ctx r = false) (item : Item) :
    ∃ a : Attempt, a.before = r ∧ a.item = item ∧ a.Atomic ctx := by
  cases houtcome : attempt ctx r.set item with
  | ok set =>
      refine ⟨⟨r, item, ⟨set, r.errors⟩⟩, rfl, rfl, ?_, ?_, ?_⟩
      · rw [runItem, if_neg (by simp [hlimit]), houtcome]
      · intro e he
        rw [Attempt.outcome, houtcome] at he
        cases he
      · intro set' hset'
        rw [Attempt.outcome, houtcome] at hset'
        cases hset'
        exact ⟨rfl, files_prefix_of_attempt houtcome⟩
  | error e =>
      refine ⟨⟨r, item, ⟨r.set, r.errors ++ [e]⟩⟩, rfl, rfl, ?_, ?_, ?_⟩
      · rw [runItem, if_neg (by simp [hlimit]), houtcome]
        show fail ctx r e = _
        rw [fail, hmode]
      · intro e' he'
        rw [Attempt.outcome, houtcome] at he'
        cases he'
        rfl
      · intro set hset
        rw [Attempt.outcome, houtcome] at hset
        cases hset

/-- **With best effort a run is a list of attempts at the items of its plan, in order, which is cut
short only where as many errors are kept as allowed.** -/
theorem exists_attempts (hmode : ctx.config.mode = .bestEffort) (items : List Item)
    (hr : r.errors.length ≤ ctx.config.maxErrors) :
    ∃ attempts r', items.foldlM (runItem ctx) r = .ok r' ∧ Linked r attempts r' ∧
      (∀ a ∈ attempts, a.Atomic ctx) ∧ attempts.map (·.item) <+: items ∧
      r'.errors.length ≤ ctx.config.maxErrors ∧
      (r'.errors.length < ctx.config.maxErrors → attempts.map (·.item) = items) := by
  induction items generalizing r with
  | nil => exact ⟨[], r, rfl, .nil r, by simp, List.prefix_rfl, hr, fun _ => rfl⟩
  | cons item items ih =>
      cases hlimit : limitReached ctx r with
      | true =>
          have hidle : ∀ i, runItem ctx r i = .ok r := fun i => by rw [runItem, if_pos hlimit]
          have hfull : ctx.config.maxErrors ≤ r.errors.length := by
            simpa [limitReached, hmode] using hlimit
          exact ⟨[], r, foldlM_of_idle hidle _, .nil r, by simp, List.nil_prefix, hr,
            fun hlt => by omega⟩
      | false =>
          have hroom : r.errors.length < ctx.config.maxErrors := by
            simpa [limitReached, hmode] using hlimit
          obtain ⟨a, rfl, rfl, hatomic⟩ := exists_attempt hmode hlimit item
          have hafter : a.after.errors.length ≤ ctx.config.maxErrors := by
            rw [hatomic.errors_after, List.length_append]
            cases a.error? ctx <;> simp <;> omega
          obtain ⟨attempts, r', hitems, hlinked, hall, hplan, hle, hcomplete⟩ := ih hafter
          refine ⟨a :: attempts, r', Fallible.foldlM_cons_eq_ok.mpr ⟨_, hatomic.step, hitems⟩,
            .cons hlinked, ?_, ?_, hle, fun hlt => by rw [List.map_cons, hcomplete hlt]⟩
          · intro b hb
            rcases List.mem_cons.mp hb with rfl | hb
            · exact hatomic
            · exact hall b hb
          · exact List.cons_prefix_cons.mpr ⟨rfl, hplan⟩

end

/-! ### The account of a run -/

/-- The attempts account for all a report holds, and unless as many errors are kept as allowed
they account for all the roots stand for. -/
structure Account (ctx : Context) (roots : List Path) (attempts : List Attempt)
    (report : BatchReport) : Prop where
  linked : Linked ⟨.empty, []⟩ attempts report
  atomic : ∀ a ∈ attempts, a.Atomic ctx
  /-- Items are taken on in the order of the plan, and below the limit all of them are. -/
  planned : attempts.map (·.item) <+: plan ctx roots
  complete : report.errors.length < ctx.config.maxErrors → attempts.map (·.item) = plan ctx roots
  errors_eq : report.errors = attempts.filterMap (·.error? ctx)
  errors_le : report.errors.length ≤ ctx.config.maxErrors
  nodup : report.set.names.Nodup
  closed : report.set.ImportClosed
  /-- A schema file listed for a directory among the roots is in the set, or its attempt failed. -/
  files : report.errors.length < ctx.config.maxErrors → ∀ root ∈ roots, ∀ paths,
    ctx.source.present root = true → ctx.source.isDir root = true →
    ctx.source.list root = .ok paths → ∀ p ∈ paths, ctx.config.matchesExtension p = true →
    root.relativeName p ∈ report.set.names ∨
      ∃ a ∈ attempts, a.item = .file ⟨root.relativeName p, p, root⟩ ∧ ∃ e, a.error? ctx = some e
  /-- The error of a root that stands for no files is in the report. -/
  refused : report.errors.length < ctx.config.maxErrors → ∀ root ∈ roots, ∀ e,
    jobs ctx root = .error e → e ∈ report.errors

end Batch

open Batch in
/-- **A batch with best effort always reports, and drops nothing silently.**  Its run is a list of
attempts at single files: one that fails adds its error and leaves the set as it was, one that
is done adds no error.  No more errors are kept than allowed, the set names no file twice and
has what its files import, each before the file; and with fewer errors than allowed, every
schema file the roots list is in the set or is one whose attempt failed. -/
theorem compileAll_bestEffort_accounts (source : Source) (config : Config) (roots : List Path)
    (hvalid : config.validate = .ok ()) (hmode : config.mode = .bestEffort) :
    ∃ attempts report, compileAll source config roots = .ok report ∧
      Account ⟨source, config⟩ roots attempts report := by
  obtain ⟨attempts, report, hrun, hlinked, hatomic, hplanned, hle, hcomplete⟩ :=
    @exists_attempts ⟨source, config⟩ ⟨.empty, []⟩ hmode (plan ⟨source, config⟩ roots)
      (Nat.zero_le _)
  have hsound : Sound report.set :=
    hlinked.preserves (P := fun r => Sound r.set) (fun a ha => (hatomic a ha).sound) sound_empty
  have herrors : report.errors = attempts.filterMap (·.error? ⟨source, config⟩) :=
    hlinked.errors_eq hatomic
  refine ⟨attempts, report, (compileAll_eq hvalid roots).trans hrun, ?_⟩
  refine ⟨hlinked, hatomic, hplanned, hcomplete, herrors, hle, hsound.nodup, hsound.closed,
    ?_, ?_⟩
  · intro hlt root hroot paths hpresent hdir hlist p hp hext
    have hmem : .file ⟨root.relativeName p, p, root⟩ ∈ plan ⟨source, config⟩ roots := by
      refine mem_plan hroot ?_
      rw [itemsOf_directory hpresent hdir hlist]
      exact List.mem_map_of_mem (List.mem_filter.mpr ⟨hp, hext⟩)
    rw [← hcomplete hlt] at hmem
    obtain ⟨a, ha, hitem⟩ := List.mem_map.mp hmem
    rcases (hatomic a ha).name_mem_or_failed hitem with hname | hfailed
    · exact .inl (((hlinked.grows hatomic a ha).map (·.name)).subset hname)
    · exact .inr ⟨a, ha, hitem, hfailed⟩
  · intro hlt root hroot e hjobs
    have hmem : .refused root e ∈ plan ⟨source, config⟩ roots := by
      refine mem_plan hroot ?_
      rw [itemsOf, hjobs]
      exact List.mem_cons_self
    rw [← hcomplete hlt] at hmem
    obtain ⟨a, ha, hitem⟩ := List.mem_map.mp hmem
    rw [herrors]
    refine List.mem_filterMap.mpr ⟨a, ha, ?_⟩
    rw [Attempt.error?, Attempt.outcome, hitem]
    rfl

/-- The directory with a failing file is accounted for. -/
theorem mixed_accounts :
    let config : Config := { Config.default with mode := .bestEffort }
    config.validate = .ok () ∧ config.mode = .bestEffort ∧
    (compileAll mixed.source config [⟨"d"⟩]).toOption.map (fun r =>
      (r.set.names, r.errors.length)) = some (["c.proto", "a.proto"], 1) ∧
    ∃ attempts report, compileAll mixed.source config [⟨"d"⟩] = .ok report ∧
      Batch.Account ⟨mixed.source, config⟩ [⟨"d"⟩] attempts report := by
  intro config
  have hvalid : config.validate = .ok () := Fallible.eq_ok_of_isOk (by decide +kernel)
  exact ⟨hvalid, rfl, by decide +kernel,
    compileAll_bestEffort_accounts mixed.source config [⟨"d"⟩] hvalid rfl⟩

end Schemata
