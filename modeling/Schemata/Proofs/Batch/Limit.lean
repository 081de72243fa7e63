/-
A batch with best effort and the number of errors it may keep.

Two batches that differ in that number alone go through one plan.  While both have room for
errors they take the same steps, and their reports are the same.  Once the first one is full
it stands still, and its report is what the other one had come to by then; that one goes on,
but it only adds, to the errors and to the set.  So the smaller number cuts the run short and
does nothing else.

`Truncates` says how the two reports stand to each other at any moment.  One item keeps it, and
therefore the whole plan does.
-/
import Schemata.Proofs.Batch.Report

namespace Schemata

namespace Batch

/-- The same run with another number of errors it may keep. -/
def Context.withLimit (ctx : Context) (limit : Nat) : Context :=
  { ctx with config := { ctx.config with maxErrors := limit } }

/-- What a run that may keep so many errors has come to, and one that may keep no fewer. -/
inductive Truncates (limit : Nat) : BatchReport → BatchReport → Prop where
  /-- There is room for another error, and the reports are the same. -/
  | same {r : BatchReport} (hroom : r.errors.length < limit) : Truncates limit r r
  /-- There is no room, and the second report has gone on from the first. -/
  | full {r r' : BatchReport} (hfull : r.errors.length = limit) (herrors : r.errors <+: r'.errors)
      (hfiles : r.set.files <+: r'.set.files) : Truncates limit r r'

/-- The first report is the second one cut short where so many errors are kept. -/
structure CutShort (limit : Nat) (r r' : BatchReport) : Prop where
  errors : r.errors = r'.errors.take (min limit r'.errors.length)
  files : r.set.files <+: r'.set.files
  /-- With fewer errors there is nothing to cut. -/
  whole : r'.errors.length < limit → r = r'

theorem Truncates.cutShort {limit : Nat} {r r' : BatchReport} (h : Truncates limit r r') :
    CutShort limit r r' := by
  cases h with
  | same hroom =>
      refine ⟨?_, List.prefix_rfl, fun _ => rfl⟩
      rw [min_eq_right hroom.le, List.take_length]
  | full hfull herrors hfiles =>
      have hle : limit ≤ r'.errors.length := hfull ▸ herrors.length_le
      refine ⟨?_, hfiles, fun hlt => absurd hlt (Nat.not_lt.mpr hle)⟩
      rw [min_eq_left hle, ← hfull]
      exact List.prefix_iff_eq_take.mp herrors

section

variable {ctx : Context} {m n : Nat} {r r' : BatchReport}

theorem limitReached_withLimit (hmode : ctx.config.mode = .bestEffort) (limit : Nat) :
    limitReached (ctx.withLimit limit) r = true ↔ limit ≤ r.errors.length := by
  simp [limitReached, Context.withLimit, hmode]

/-- A report without room is handed on. -/
theorem runItem_of_full (hmode : ctx.config.mode = .bestEffort) {limit : Nat}
    (hfull : limit ≤ r.errors.length) (item : Item) :
    runItem (ctx.withLimit limit) r item = .ok r := by
  rw [runItem, if_pos ((limitReached_withLimit hmode limit).mpr hfull)]

/-- Where there is room it does not matter how much. -/
theorem runItem_of_room (hmode : ctx.config.mode = .bestEffort) (hm : r.errors.length < m)
    (hn : r.errors.length < n) (item : Item) :
    runItem (ctx.withLimit m) r item = runItem (ctx.withLimit n) r item := by
  rw [runItem, runItem, if_neg (mt (limitReached_withLimit hmode m).mp hm.not_ge),
    if_neg (mt (limitReached_withLimit hmode n).mp hn.not_ge)]
  rfl

/-- An item is one attempt if there is room. -/
theorem exists_attempt_withLimit (hmode : ctx.config.mode = .bestEffort) {limit : Nat}
    (hroom : r.errors.length < limit) (item : Item) :
    ∃ a : Attempt, a.before = r ∧ a.item = item ∧ a.Atomic (ctx.withLimit limit) := by
  have hlimit : limitReached (ctx.withLimit limit) r = false :=
    Bool.eq_false_iff.mpr (mt (limitReached_withLimit hmode limit).mp hroom.not_ge)
  exact @exists_attempt (ctx.withLimit limit) r hmode hlimit item

/-- **One item keeps the reports as they stand to each other.** -/
theorem Truncates.runItem (hmode : ctx.config.mode = .bestEffort) (hle : m ≤ n)
    (h : Truncates m r r') (item : Item) :
    ∃ s s', Batch.runItem (ctx.withLimit m) r item = .ok s ∧
      Batch.runItem (ctx.withLimit n) r' item = .ok s' ∧ Truncates m s s' := by
  cases h with
  | same hroom =>
      obtain ⟨a, rfl, rfl, hatomic⟩ := exists_attempt_withLimit hmode hroom item
      have hstep := runItem_of_room hmode hroom (hroom.trans_le hle) a.item
      refine ⟨a.after, a.after, hatomic.step, hstep ▸ hatomic.step, ?_⟩
      have hafter : a.after.errors.length ≤ a.before.errors.length + 1 := by
        rw [hatomic.errors_after, List.length_append]
        exact Nat.add_le_add_left (Option.length_toList_le) _
      by_cases hlt : a.after.errors.length < m
      · exact .same hlt
      · exact .full (by omega) List.prefix_rfl List.prefix_rfl
  | full hfull herrors hfiles =>
      have hidle := runItem_of_full hmode hfull.ge item
      by_cases hroom : r'.errors.length < n
      · obtain ⟨a, rfl, rfl, hatomic⟩ := exists_attempt_withLimit hmode hroom item
        refine ⟨r, a.after, hidle, hatomic.step, .full hfull ?_ (hfiles.trans hatomic.grows)⟩
        exact herrors.trans (hatomic.errors_after ▸ List.prefix_append _ _)
      · exact ⟨r, r', hidle, runItem_of_full hmode (Nat.not_lt.mp hroom) item,
          .full hfull herrors hfiles⟩

/-- **All items keep the reports as they stand to each other.** -/
theorem Truncates.foldlM_runItem (hmode : ctx.config.mode = .bestEffort) (hle : m ≤ n)
    (items : List Item) (h : Truncates m r r') :
    ∃ s s', items.foldlM (Batch.runItem (ctx.withLimit m)) r = .ok s ∧
      items.foldlM (Batch.runItem (ctx.withLimit n)) r' = .ok s' ∧ Truncates m s s' := by
  induction items generalizing r r' with
  | nil => exact ⟨r, r', rfl, rfl, h⟩
  | cons item items ih =>
      obtain ⟨t, t', ht, ht', hitem⟩ := h.runItem hmode hle item
      obtain ⟨s, s', hs, hs', hitems⟩ := ih hitem
      exact ⟨s, s', Fallible.foldlM_cons_eq_ok.mpr ⟨t, ht, hs⟩,
        Fallible.foldlM_cons_eq_ok.mpr ⟨t', ht', hs'⟩, hitems⟩

end

end Batch

/-- Settings that may keep some errors are valid or not however many these are. -/
theorem Config.validate_maxErrors (config : Config) {m n : Nat} (hm : 0 < m) (hn : 0 < n) :
    Config.validate { config with maxErrors := m } =
      Config.validate { config with maxErrors := n } := by
  rw [validate, validate, if_neg (c := m = 0) hm.ne', if_neg (c := n = 0) hn.ne']

/-- **The number of errors a batch may keep only cuts it short.**  Of two batches with best effort
that may keep `m` errors and no fewer, the first one reports the first `m` errors the second
one reports, and the first files of its set; and if the second one reports fewer than `m`
errors, the reports are the same.  Both report, unless the settings are refused, and then both
are. -/
theorem compileAll_limit_truncates (source : Source) (config : Config) (roots : List Path)
    {m n : Nat} (hmode : config.mode = .bestEffort) (hm : 1 ≤ m) (hmn : m ≤ n) :
    (∀ e, Config.validate { config with maxErrors := m } = .error e →
      compileAll source { config with maxErrors := m } roots = .error e ∧
      compileAll source { config with maxErrors := n } roots = .error e) ∧
    (Config.validate { config with maxErrors := m } = .ok () →
      ∃ r r', compileAll source { config with maxErrors := m } roots = .ok r ∧
        compileAll source { config with maxErrors := n } roots = .ok r' ∧
        Batch.CutShort m r r') := by
  have hsame := config.validate_maxErrors hm (hm.trans hmn)
  constructor
  · intro e he
    rw [compileAll, compileAll, ← hsame, he]
    exact ⟨rfl, rfl⟩
  · intro hvalid
    let ctx : Batch.Context := ⟨source, config⟩
    have hbest : ctx.config.mode = .bestEffort := hmode
    -- What the roots stand for does not depend on how many errors may be kept.
    have hplan : Batch.plan (ctx.withLimit n) roots = Batch.plan (ctx.withLimit m) roots := rfl
    have hstart : Batch.Truncates m ⟨.empty, []⟩ ⟨.empty, []⟩ := .same hm
    obtain ⟨r, r', hrun, hrun', h⟩ :=
      hstart.foldlM_runItem hbest hmn (Batch.plan (ctx.withLimit m) roots)
    refine ⟨r, r', (Batch.compileAll_eq hvalid roots).trans hrun, ?_, h.cutShort⟩
    rw [Batch.compileAll_eq (hsame ▸ hvalid) roots]
    exact hplan ▸ hrun'

/-- A directory where every other file fails. -/
def troubled : Table := .ofList
  [(⟨"d/a.proto"⟩, importsOf []), (⟨"d/b.proto"⟩, importsOf ["gone.proto"]),
    (⟨"d/c.proto"⟩, importsOf []), (⟨"d/d.proto"⟩, importsOf ["b.proto"]),
    (⟨"d/e.proto"⟩, importsOf [])]

/-- With room for one error the batch ends at the second file, with room for two at the fourth. -/
theorem troubled_limit_truncates :
    let config : Config := { Config.default with mode := .bestEffort }
    let run := fun limit => compileAll troubled.source { config with maxErrors := limit } [⟨"d"⟩]
    let found := fun limit => (run limit).toOption.map fun r => (r.set.names, r.errors.length)
    config.mode = .bestEffort ∧ 1 ≤ 1 ∧ 1 ≤ 2 ∧
    Config.validate { config with maxErrors := 1 } = .ok () ∧
    found 1 = some (["a.proto"], 1) ∧ found 2 = some (["a.proto", "c.proto"], 2) ∧
    ∃ r r', run 1 = .ok r ∧ run 2 = .ok r' ∧ Batch.CutShort 1 r r' := by
  intro config run found
  have hvalid : Config.validate { config with maxErrors := 1 } = .ok () :=
    Fallible.eq_ok_of_isOk (by decide +kernel)
  obtain ⟨-, hreports⟩ := compileAll_limit_truncates troubled.source config [⟨"d"⟩]
    (m := 1) (n := 2) rfl (by decide) (by decide)
  exact ⟨rfl, by decide, by decide, hvalid, by decide +kernel, by decide +kernel, hreports hvalid⟩

end Schemata
