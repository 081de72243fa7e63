/-
Loading behind a set that is finished.

A load that succeeds from one set is repeated with the files of a second set in front.  It
follows the same chains and compiles the same files, only that a file of the second set is
passed over together with all below it.  What it comes to is the merge of the second set with
what the first load came to.

Two things are needed of the second set.  It is closed, so a file below one of its files is
in it as well; and a name both sets have stands for one descriptor, so that the imports the
first load follows from such a file are the imports the second set is closed under.
-/
import Schemata.Proofs.Descriptor.Imports
import Schemata.Proofs.Loading.Closure

namespace Schemata

open Descriptor

/-- Where the set has a name of `s`, it has the descriptor of `s` too. -/
def DescriptorSet.AgreesOn (s t : DescriptorSet) : Prop :=
  ∀ f ∈ t.files, f.name ∈ s.names → f ∈ s.files

namespace Loading

variable {g : ImportGraph} {front : DescriptorSet} {p p' q : Progress}

@[simp] theorem Progress.done_empty (p : Progress) : p.done .empty = p.set.names := rfl

/-- What a load adds on behalf of files of a closed set is in that set. -/
theorem Adds.covered {known : DescriptorSet} {keys : List String} {new : List File}
    (h : Adds g known keys p q new) (hclosed : front.ImportClosed) (hagree : front.AgreesOn ⟨new⟩)
    (hkeys : ∀ key ∈ keys, key ∈ front.names) : ∀ f ∈ new, f.name ∈ front.names := by
  have hall : ∀ name ∈ new.map (·.name), name ∈ front.names := by
    refine h.order.subset_of_closed hkeys fun name hname hmem key hkey => ?_
    obtain ⟨f, hf, rfl⟩ := List.mem_map.mp hname
    rw [← h.dependencies hf] at hkey
    exact hclosed.mem_names (hagree f hf hmem) hkey
  exact fun f hf => hall f.name (List.mem_map_of_mem hf)

/-- The task opens no file of the set. -/
def Task.Outside (front : DescriptorSet) : Task → Prop
  | .file name => name ∉ front.names
  | .imports _ _ => True

/-- A file that is new and not in front may be opened behind the set in front. -/
theorem Ready.behind {chain : List String} {name : String} (h : Ready g .empty chain name p)
    (hfront : name ∉ front.names) (hp : p'.set = front.merge p.set) :
    Ready g .empty chain name p' := by
  refine ⟨h.opens, ?_⟩
  rw [Progress.done_empty, hp, DescriptorSet.mem_names_merge]
  exact fun hmem => hmem.elim hfront h.fresh

/-- **A run that succeeds is repeated behind a closed set.** -/
theorem Runs.behind {chain : List String} {task : Task} {r : Except Error Unit}
    (hclosed : front.ImportClosed) (h : Runs g .empty chain task p r q) (hr : r = .ok ())
    (hagree : front.AgreesOn q.set) (hout : task.Outside front) (hp : p'.set = front.merge p.set) :
    ∃ q', Runs g .empty chain task p' (.ok ()) q' ∧ q'.set = front.merge q.set := by
  induction h generalizing p' with
  | tooDeep => cases hr
  | refused => cases hr
  | stopped => cases hr
  | cycle => cases hr
  | missing => cases hr
  | failed => cases hr
  | nil => exact ⟨p', .nil, hp⟩
  | @finished chain name p q c hready hroom hc himports ih =>
      have hagree' : front.AgreesOn q.set :=
        fun f hf => hagree f (DescriptorSet.mem_insert_of_mem hf)
      obtain ⟨q', hruns, hq'⟩ := ih rfl hagree' trivial hp
      refine ⟨q'.add c.file, .finished (hready.behind hout hp) hroom hc hruns, ?_⟩
      show q'.set.insert c.file = front.merge (q.set.insert c.file)
      rw [hq', DescriptorSet.merge_insert]
  | @skip chain importer i is p q r hopen hdone hlater ih =>
      obtain ⟨q', hruns, hq'⟩ := ih hr hagree trivial hp
      refine ⟨q', .skip hopen ?_ hruns, hq'⟩
      rw [Progress.done_empty, hp, DescriptorSet.mem_names_merge]
      exact .inr hdone
  | @loaded chain importer i is p m q r hnew hload hlater ihLoad ihLater =>
      subst hr
      obtain ⟨first, hfirst⟩ := hload.adds rfl
      obtain ⟨second, hsecond⟩ := hlater.adds rfl
      have hagreeFirst : front.AgreesOn m.set := by
        intro f hf
        exact hagree f (hsecond.files ▸ List.mem_append_left _ hf)
      by_cases hfront : importKey i.path ∈ front.names
      · -- All that was loaded here is in front.
        have hcovered := hfirst.covered hclosed
          (fun f hf => hagreeFirst f (hfirst.files ▸ List.mem_append_right _ hf))
          (by simpa [Task.keys] using hfront)
        have hm : p'.set = front.merge m.set := by
          rw [hp, hfirst.set_eq]
          exact (DescriptorSet.merge_append_of_mem hcovered).symm
        obtain ⟨q', hruns, hq'⟩ := ihLater rfl hagree trivial hm
        refine ⟨q', .skip hload.ready.notMem ?_ hruns, hq'⟩
        rw [Progress.done_empty, hp, DescriptorSet.mem_names_merge]
        exact .inl hfront
      · obtain ⟨m', hruns, hm'⟩ := ihLoad rfl hagreeFirst hfront
          (show (p'.ask (importKey i.path)).set = front.merge p.set from hp)
        obtain ⟨q', hruns', hq'⟩ := ihLater rfl hagree trivial hm'
        exact ⟨q', .loaded hruns.ready.fresh hruns hruns', hq'⟩

end Loading

/-- **A load behind a closed set comes to the merge.**  From files behind the set in front a load
comes to what it came to without that set, merged into it; a file that is in front adds
nothing. -/
theorem loadInto_merge {resolver : Resolver} {nesting : Nesting} {name : String}
    {bytes : ByteArray} {front set : DescriptorSet} (hclosed : front.ImportClosed)
    (hnew : name ∉ set.names) (hok : (loadInto resolver nesting name bytes set).result = .ok ())
    (hagree : front.AgreesOn (loadInto resolver nesting name bytes set).progress.set) :
    (name ∈ front.names →
      front.merge (loadInto resolver nesting name bytes set).progress.set = front.merge set) ∧
    (name ∉ front.names →
      (loadInto resolver nesting name bytes (front.merge set)).result = .ok () ∧
      (loadInto resolver nesting name bytes (front.merge set)).progress.set =
        front.merge (loadInto resolver nesting name bytes set).progress.set) := by
  let g : ImportGraph := ⟨name, bytes, resolver, nesting⟩
  obtain ⟨new, hadds⟩ := Loading.loadInto_adds hnew hok
  refine ⟨fun hfront => ?_, fun hfront => ?_⟩
  · have hcovered := hadds.covered hclosed
      (fun f hf => hagree f (hadds.files ▸ List.mem_append_right _ hf)) (by simpa using hfront)
    rw [hadds.set_eq]
    exact DescriptorSet.merge_append_of_mem hcovered
  · have hruns : Loading.Runs g .empty [] (.file name) ⟨set, []⟩ (.ok ())
        (loadInto resolver nesting name bytes set).progress :=
      hok ▸ Loading.runs_loadOver (g := g) hnew
    obtain ⟨q', hbehind, hq'⟩ :=
      hruns.behind hclosed rfl hagree hfront
        (show (⟨front.merge set, []⟩ : Loading.Progress).set = front.merge set from rfl)
    have hload := (Loading.runs_loadRoot_iff hbehind.ready.fresh).mp hbehind
    rw [loadInto, Loading.loadOver_eq .empty g (front.merge set)]
    exact ⟨congrArg Prod.fst hload, (congrArg (fun o => o.2.set) hload).trans hq'⟩

end Schemata
