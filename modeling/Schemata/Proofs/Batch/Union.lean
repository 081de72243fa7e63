/-
Batches over several lists of roots.

A batch over two lists of roots does the items of the second list behind the set that the
first list came to.  Alone the second list comes to a set of its own; behind the first one a
file of the first set is passed over, with all below it, and everything else is done as
before.  So the batch comes to the merge of the two sets, provided that a name both sets have
stands for one descriptor.
-/
import Schemata.Proofs.Batch.Plan
import Schemata.Proofs.Loading.Union

namespace Schemata

namespace Batch

open Fallible

variable {ctx : Context} {front set set' : DescriptorSet}

/-- An item that is done on a set is done behind a closed set in front of it. -/
theorem attempt_merge {item : Item} (hclosed : front.ImportClosed) (hagree : front.AgreesOn set')
    (h : attempt ctx set item = .ok set') :
    attempt ctx (front.merge set) item = .ok (front.merge set') := by
  cases item with
  | refused root e => cases h
  | file job =>
      show perform ctx (front.merge set) job = .ok (front.merge set')
      cases performs_of_attempt h with
      | taken hname => exact perform_of_taken (DescriptorSet.mem_names_merge.mpr (.inr hname))
      | loaded hname hread hload =>
          obtain ⟨hinside, houtside⟩ := loadInto_merge hclosed hname hload hagree
          by_cases hfront : job.name ∈ front.names
          · rw [hinside hfront]
            exact perform_of_taken (DescriptorSet.mem_names_merge.mpr (.inl hfront))
          · obtain ⟨hok, hset⟩ := houtside hfront
            have hnew : job.name ∉ (front.merge set).names := fun hmem =>
              (DescriptorSet.mem_names_merge.mp hmem).elim hfront hname
            rw [perform_of_read hnew hread, hok, hset]
            rfl

/-- Items that are done from a set are done behind a closed set in front of it. -/
theorem foldlM_attempt_merge {items : List Item} (hclosed : front.ImportClosed)
    (hagree : front.AgreesOn set') (h : items.foldlM (attempt ctx) set = .ok set') :
    items.foldlM (attempt ctx) (front.merge set) = .ok (front.merge set') := by
  induction items generalizing set with
  | nil =>
      cases h
      rfl
  | cons item items ih =>
      obtain ⟨middle, hitem, hitems⟩ := foldlM_cons_eq_ok.mp h
      have hagree' : front.AgreesOn middle :=
        fun f hf => hagree f ((files_prefix_of_foldlM hitems).subset hf)
      exact foldlM_cons_eq_ok.mpr
        ⟨front.merge middle, attempt_merge hclosed hagree' hitem, ih hitems⟩

end Batch

open Batch in
/-- **A batch over two lists of roots comes to the union of its parts.**  If two batches that fail
fast succeed, and no name stands for different descriptors in their sets, then the batch over
the roots of both succeeds, and its set is the merge of theirs. -/
theorem compileAll_append_roots {source : Source} {config : Config}
    (hmode : config.mode = .failFast) {first second : List Path} {a b : BatchReport}
    (ha : compileAll source config first = .ok a) (hb : compileAll source config second = .ok b)
    (hsame : ∀ f ∈ a.set.files, ∀ g ∈ b.set.files, f.name = g.name → f = g) :
    compileAll source config (first ++ second) = .ok ⟨a.set.merge b.set, []⟩ := by
  obtain ⟨hvalid, -, hfirst⟩ := (compileAll_failFast_iff hmode).mp ha
  obtain ⟨-, -, hsecond⟩ := (compileAll_failFast_iff hmode).mp hb
  have hagree : a.set.AgreesOn b.set := by
    intro g hg hname
    obtain ⟨f, hf, hfg⟩ := List.mem_map.mp hname
    exact hsame f hf g hg hfg ▸ hf
  refine (compileAll_failFast_iff hmode).mpr ⟨hvalid, rfl, ?_⟩
  rw [plan, List.flatMap_append, List.foldlM_append, ← plan, hfirst]
  exact foldlM_attempt_merge (sound_empty.foldlM_attempt hfirst).closed hagree hsecond

/-- Two directories with a file of their own each, and a file of one name and content in both. -/
def shared : Table := .ofList
  [(⟨"d/a.proto"⟩, importsOf ["c.proto"]), (⟨"d/c.proto"⟩, importsOf []),
    (⟨"e/b.proto"⟩, importsOf ["c.proto"]), (⟨"e/c.proto"⟩, importsOf [])]

/-- The file both directories have is in the union once. -/
theorem shared_append_roots :
    let a : BatchReport := ⟨⟨[importing "c.proto" [], importing "a.proto" ["c.proto"]]⟩, []⟩
    let b : BatchReport := ⟨⟨[importing "c.proto" [], importing "b.proto" ["c.proto"]]⟩, []⟩
    compileAll shared.source .default [⟨"d"⟩] = .ok a ∧
    compileAll shared.source .default [⟨"e"⟩] = .ok b ∧
    (∀ f ∈ a.set.files, ∀ g ∈ b.set.files, f.name = g.name → f = g) ∧
    (a.set.merge b.set).names = ["c.proto", "a.proto", "b.proto"] ∧
    compileAll shared.source .default [⟨"d"⟩, ⟨"e"⟩] = .ok ⟨a.set.merge b.set, []⟩ := by
  intro a b
  have ha : compileAll shared.source .default [⟨"d"⟩] = .ok a :=
    Fallible.toOption_eq_some.mp (by decide +kernel)
  have hb : compileAll shared.source .default [⟨"e"⟩] = .ok b :=
    Fallible.toOption_eq_some.mp (by decide +kernel)
  have hsame : ∀ f ∈ a.set.files, ∀ g ∈ b.set.files, f.name = g.name → f = g := by
    decide +kernel
  exact ⟨ha, hb, hsame, by decide +kernel, compileAll_append_roots rfl ha hb hsame⟩

end Schemata
