/-
What a load asks the resolver for.

The keys a load asks for are what a depth-first walk over the imports meets, in the order it
meets them.  What the walk counts as seen is known to the load in two pieces: the files that
are done and the files that are open.  A key of the second kind ends the load, so wherever it
goes on the two pass over the same keys.

A load that succeeds has added all it asked for.  One that fails leaves a file for each key
that it asked for and finished; the others are open, but for the last one, which may have been
asked for in vain.
-/
import Schemata.Proofs.Loading.Failure
import Schemata.Proofs.PreOrder

namespace Schemata

namespace Loading

variable {g : ImportGraph} {known : DescriptorSet} {chain : List String} {p q m : Progress}

/-! ### The walk a run follows -/

/-- The files that are open while a task is at work. -/
def Task.opened (chain : List String) : Task → List String
  | .file name => chain ++ [name]
  | .imports _ _ => chain

/-- The keys a task has ahead of it. -/
def Task.ahead (g : ImportGraph) : Task → List String
  | .file name => g.imports name
  | .imports _ rest => rest.map fun i => importKey i.path

/-- The file a task adds itself. -/
def Task.finished : Task → List String
  | .file name => [name]
  | .imports _ _ => []

/-- The names of `seen` are those of the files that are done or open. -/
def Sees (known : DescriptorSet) (p : Progress) (opened seen : List String) : Prop :=
  ∀ name, name ∈ seen ↔ name ∈ p.done known ∨ name ∈ opened

theorem sees_append (known : DescriptorSet) (p : Progress) (opened : List String) :
    Sees known p opened (p.done known ++ opened) := fun _ => List.mem_append

/-- A file that is opened is seen from then on. -/
theorem Sees.open {seen : List String} {key : String} (h : Sees known p chain seen) :
    Sees known (p.ask key) (chain ++ [key]) (key :: seen) := by
  intro name
  rw [List.mem_cons, h name, Progress.done_ask, List.mem_append, List.mem_singleton]
  grind

/-- Between two progresses the keys `keys` are asked for.  They are what a walk over the keys
ahead of the task meets, and `left` is what the walk leaves. -/
structure Asks (g : ImportGraph) (known : DescriptorSet) (chain : List String) (task : Task)
    (p q : Progress) (keys left : List String) : Prop where
  asked : q.asked = p.asked ++ keys
  order : ∀ seen, Sees known p (task.opened chain) seen →
    PreOrder g.imports seen (task.ahead g) keys left

namespace Asks

variable {task : Task} {importer name : String} {i : ImportDecl} {is : List ImportDecl}
  {below later left keys : List String}

/-- A task that stops at once asks for nothing. -/
theorem stop : Asks g known chain task p p [] (task.ahead g) :=
  ⟨(List.append_nil _).symm, fun _ _ => .stop _ _⟩

/-- A file asks for what its imports ask for. -/
theorem file {c : Compiled} (hc : g.compiled? name = some c) (hq : m.asked = q.asked)
    (h : Asks g known (chain ++ [name]) (.imports name c.schema.imports) p q keys left) :
    Asks g known chain (.file name) p m keys left where
  asked := hq.trans h.asked
  order := by
    rw [Task.ahead, ImportGraph.imports_of_compiled? hc]
    exact h.order

/-- An import of a file that is done asks for nothing. -/
theorem skip (hdone : importKey i.path ∈ p.done known)
    (h : Asks g known chain (.imports importer is) p q keys left) :
    Asks g known chain (.imports importer (i :: is)) p q keys left where
  asked := h.asked
  order seen hseen := .skip ((hseen _).mpr (.inl hdone)) (h.order seen hseen)

/-- An import nothing is found for is the last that is asked for. -/
theorem missing (hopen : importKey i.path ∉ chain) (hnew : importKey i.path ∉ p.done known) :
    Asks g known chain (.imports importer (i :: is)) p (p.ask (importKey i.path))
      [importKey i.path] (g.imports (importKey i.path) ++ is.map fun i => importKey i.path) where
  asked := rfl
  order _ hseen := .visit (fun hmem => ((hseen _).mp hmem).elim hnew hopen) (.stop _ _)

/-- An import that fails asks for its key and then for what its file asks for. -/
theorem failed (hready : Ready g known chain (importKey i.path) (p.ask (importKey i.path)))
    (h : Asks g known chain (.file (importKey i.path)) (p.ask (importKey i.path)) q below left) :
    Asks g known chain (.imports importer (i :: is)) p q (importKey i.path :: below)
      (left ++ is.map fun i => importKey i.path) where
  asked := by rw [h.asked, Progress.ask, List.append_assoc, List.singleton_append]
  order seen hseen := by
    refine .visit (fun hmem => ((hseen _).mp hmem).elim hready.fresh hready.notMem) ?_
    exact (h.order _ hseen.open).append_todo _

/-- An import that is loaded asks for its key and what its file asks for, and the walk goes on
from what is done then. -/
theorem loaded (hready : Ready g known chain (importKey i.path) (p.ask (importKey i.path)))
    (hload : Asks g known chain (.file (importKey i.path)) (p.ask (importKey i.path)) m below [])
    (hdone : ∀ name, name ∈ m.done known ↔
      name ∈ p.done known ∨ name = importKey i.path ∨ name ∈ below)
    (hlater : Asks g known chain (.imports importer is) m q later left) :
    Asks g known chain (.imports importer (i :: is)) p q (importKey i.path :: (below ++ later))
      left where
  asked := by
    rw [hlater.asked, hload.asked, Progress.ask, List.append_assoc, List.append_assoc,
      List.singleton_append]
  order seen hseen := by
    refine .visit (fun hmem => ((hseen _).mp hmem).elim hready.fresh hready.notMem) ?_
    refine (hload.order _ hseen.open).append (hlater.order _ fun name => ?_)
    rw [List.mem_append, List.mem_reverse, List.mem_cons, hseen name, hdone name, Task.opened,
      Task.opened]
    grind

/-- Nothing is asked for that was done or open. -/
theorem fresh (h : Asks g known chain task p q keys left) :
    ∀ key ∈ keys, key ∉ p.done known ∧ key ∉ task.opened chain := by
  intro key hkey
  have hunseen := (h.order _ (sees_append known p (task.opened chain))).fresh key hkey
  rwa [List.mem_append, not_or] at hunseen

end Asks

/-! ### Runs that succeed -/

theorem mem_done_add {file : Descriptor.File} {name : String} :
    name ∈ (p.add file).done known ↔ name ∈ p.done known ∨ name = file.name := by
  rw [Progress.done, Progress.done, Progress.add, List.mem_append, List.mem_append,
    DescriptorSet.mem_names_insert, or_assoc]

/-- **A run that succeeds asks for what a whole walk meets, and all of it is done then.** -/
theorem Runs.asks {task : Task} {r : Except Error Unit} (h : Runs g known chain task p r q)
    (hr : r = .ok ()) :
    ∃ keys, Asks g known chain task p q keys [] ∧
      ∀ name, name ∈ q.done known ↔
        name ∈ p.done known ∨ name ∈ task.finished ∨ name ∈ keys := by
  induction h with
  | tooDeep => cases hr
  | refused => cases hr
  | stopped => cases hr
  | cycle => cases hr
  | missing => cases hr
  | failed => cases hr
  | nil => exact ⟨[], .stop, by simp [Task.finished]⟩
  | @finished chain name p q c hready hroom hc himports ih =>
      obtain ⟨keys, hasks, hdone⟩ := ih rfl
      refine ⟨keys, .file (q := q) hc rfl hasks, fun other => ?_⟩
      rw [mem_done_add, hdone other, ImportGraph.name_of_compiled? hc]
      simp only [Task.finished, List.not_mem_nil, List.mem_singleton]
      grind
  | skip hopen hdone hlater ih =>
      obtain ⟨keys, hasks, hall⟩ := ih hr
      exact ⟨keys, hasks.skip hdone, hall⟩
  | @loaded chain importer i is p m q r hnew hload hlater ihLoad ihLater =>
      obtain ⟨below, hbelow, hbelowDone⟩ := ihLoad rfl
      obtain ⟨later, hlaterAsks, hlaterDone⟩ := ihLater hr
      simp only [Task.finished, List.mem_singleton, Progress.done_ask] at hbelowDone
      refine ⟨_, hbelow.loaded hload.ready hbelowDone hlaterAsks, fun name => ?_⟩
      rw [hlaterDone name, hbelowDone name]
      simp only [Task.finished, List.not_mem_nil, List.mem_cons, List.mem_append]
      grind

/-! ### Runs that fail -/

/-- The run ends with an error, which comes up when the files of the list named last are being
compiled, the outermost first.  These are the rules of a run by which errors are made and
handed on. -/
inductive Fails (g : ImportGraph) (known : DescriptorSet) :
    List String → Task → Progress → Error → List String → Prop where
  | tooDeep {chain : List String} {name : String} {p : Progress}
      (hready : Ready g known chain name p) (hdepth : g.resolver.depth ≤ chain.length) :
      Fails g known chain (.file name) p (.importDepth name) chain
  | refused {chain : List String} {name : String} {p : Progress} {bytes : ByteArray} {e : Error}
      (hready : Ready g known chain name p) (hroom : chain.length < g.resolver.depth)
      (hbytes : g.content? name = some bytes)
      (he : compileBytes name bytes g.nesting = .error e) :
      Fails g known chain (.file name) p e chain
  | stopped {chain stack : List String} {name : String} {p : Progress} {c : Compiled} {e : Error}
      (hready : Ready g known chain name p) (hroom : chain.length < g.resolver.depth)
      (hc : g.compiled? name = some c)
      (himports : Fails g known (chain ++ [name]) (.imports name c.schema.imports) p e stack) :
      Fails g known chain (.file name) p e stack
  | cycle {chain : List String} {importer : String} {i : ImportDecl} {is : List ImportDecl}
      {p : Progress} (hmeets : Meets g chain importer (importKey i.path))
      (hopen : importKey i.path ∈ chain) :
      Fails g known chain (.imports importer (i :: is)) p
        (.importCycle (importKey i.path) chain) chain
  | missing {chain : List String} {importer : String} {i : ImportDecl} {is : List ImportDecl}
      {p : Progress} {fault : AccessFault} (hmeets : Meets g chain importer (importKey i.path))
      (hopen : importKey i.path ∉ chain) (hnew : importKey i.path ∉ p.done known)
      (hfault : g.resolver.resolve (importKey i.path) = .error fault) :
      Fails g known chain (.imports importer (i :: is)) p
        (.importNotFound importer i.line i.path fault.message) chain
  | skip {chain stack : List String} {importer : String} {i : ImportDecl} {is : List ImportDecl}
      {p : Progress} {e : Error}
      (hopen : importKey i.path ∉ chain) (hdone : importKey i.path ∈ p.done known)
      (hlater : Fails g known chain (.imports importer is) p e stack) :
      Fails g known chain (.imports importer (i :: is)) p e stack
  | failed {chain stack : List String} {importer : String} {i : ImportDecl} {is : List ImportDecl}
      {p : Progress} {e : Error}
      (hload : Fails g known chain (.file (importKey i.path)) (p.ask (importKey i.path)) e stack) :
      Fails g known chain (.imports importer (i :: is)) p e stack
  | loaded {chain stack : List String} {importer : String} {i : ImportDecl} {is : List ImportDecl}
      {p m : Progress} {e : Error} (hnew : importKey i.path ∉ p.done known)
      (hload : Runs g known chain (.file (importKey i.path)) (p.ask (importKey i.path)) (.ok ()) m)
      (hlater : Fails g known chain (.imports importer is) m e stack) :
      Fails g known chain (.imports importer (i :: is)) p e stack

/-- A run that fails asks for `keys` on the way, and the files of `stack` are open then. -/
structure Stuck (g : ImportGraph) (known : DescriptorSet) (chain : List String) (task : Task)
    (p q : Progress) (keys stack : List String) (e : Error) : Prop where
  fails : Fails g known chain task p e stack
  /-- The files that were open are so still, unless the file of the task was never opened. -/
  opened : task.opened chain <+: stack ∨ keys = [] ∧ stack = chain
  /-- The files that were opened on the way were asked for. -/
  asked : ∀ name ∈ stack, name ∈ task.opened chain ∨ name ∈ keys
  /-- No file that is open is done. -/
  unfinished : ∀ name ∈ stack, name ∉ q.done known
  /-- Each key is that of a file that is done or open, or it is the last one. -/
  covered : ∀ key ∈ keys, key ∈ q.done known ∨ key ∈ stack ∨ keys.getLast? = some key

/-- What is done stays done, however a run ends. -/
theorem Runs.done_subset {task : Task} {r : Except Error Unit}
    (h : Runs g known chain task p r q) : p.done known ⊆ q.done known := by
  obtain ⟨keys, new, hadds, -⟩ := h.exists_adds
  rw [hadds.done]
  exact List.subset_append_left _ _

namespace Stuck

variable {task : Task} {importer name : String} {i : ImportDecl} {is : List ImportDecl}
  {keys below later stack : List String} {e : Error}

/-- A run that fails at once does so with the files that are open above its task. -/
theorem atOnce (hfails : Fails g known chain task p e chain) (hopened : chain <+: task.opened chain)
    (hopen : ∀ name ∈ task.opened chain, name ∉ q.done known) :
    Stuck g known chain task p q [] chain e where
  fails := hfails
  opened := .inr ⟨rfl, rfl⟩
  asked name hname := .inl (hopened.subset hname)
  unfinished name hname := hopen name (hopened.subset hname)
  covered := by simp

/-- A file fails where one of its imports fails. -/
theorem file {c : Compiled} (hready : Ready g known chain name p)
    (hroom : chain.length < g.resolver.depth) (hc : g.compiled? name = some c)
    (h : Stuck g known (chain ++ [name]) (.imports name c.schema.imports) p q keys stack e) :
    Stuck g known chain (.file name) p q keys stack e where
  fails := .stopped hready hroom hc h.fails
  opened := .inl (h.opened.elim id fun ⟨_, heq⟩ => heq ▸ List.prefix_rfl)
  asked := h.asked
  unfinished := h.unfinished
  covered := h.covered

theorem skip (hopen : importKey i.path ∉ chain) (hdone : importKey i.path ∈ p.done known)
    (h : Stuck g known chain (.imports importer is) p q keys stack e) :
    Stuck g known chain (.imports importer (i :: is)) p q keys stack e where
  fails := .skip hopen hdone h.fails
  opened := h.opened
  asked := h.asked
  unfinished := h.unfinished
  covered := h.covered

/-- The key for which nothing is found is the last one. -/
theorem missing {fault : AccessFault} (hmeets : Meets g chain importer (importKey i.path))
    (hclosed : importKey i.path ∉ chain) (hnew : importKey i.path ∉ p.done known)
    (hfault : g.resolver.resolve (importKey i.path) = .error fault)
    (hopen : ∀ name ∈ chain, name ∉ p.done known) :
    Stuck g known chain (.imports importer (i :: is)) p (p.ask (importKey i.path))
      [importKey i.path] chain (.importNotFound importer i.line i.path fault.message) where
  fails := .missing hmeets hclosed hnew hfault
  opened := .inl List.prefix_rfl
  asked _ hname := .inl hname
  unfinished := hopen
  covered _ hkey := .inr (.inr (congrArg some (List.mem_singleton.mp hkey).symm))

/-- The key of an import that fails is open where its file fails, or it was the last one. -/
theorem failed
    (h : Stuck g known chain (.file (importKey i.path)) (p.ask (importKey i.path)) q below stack
      e) :
    Stuck g known chain (.imports importer (i :: is)) p q (importKey i.path :: below) stack e where
  fails := .failed h.fails
  opened :=
    .inl (h.opened.elim (List.prefix_append _ _).trans fun ⟨_, heq⟩ => heq ▸ List.prefix_rfl)
  asked name hname := by
    have hasked := h.asked name hname
    rw [Task.opened, List.mem_append, List.mem_singleton] at hasked
    rw [Task.opened, List.mem_cons]
    grind
  unfinished := h.unfinished
  covered key hkey := by
    rcases List.mem_cons.mp hkey with rfl | hkey
    · rcases h.opened with hopened | ⟨hbelow, -⟩
      · exact .inr (.inl (hopened.subset (by simp [Task.opened])))
      · exact .inr (.inr (by rw [hbelow, List.getLast?_singleton]))
    · refine (h.covered key hkey).imp_right (Or.imp_right fun hlast => ?_)
      rw [List.getLast?_cons, hlast]
      rfl

/-- What was asked for before the import that fails is done. -/
theorem loaded {m : Progress} {first : List String} (hnew : importKey i.path ∉ p.done known)
    (hload : Runs g known chain (.file (importKey i.path)) (p.ask (importKey i.path)) (.ok ()) m)
    (hfirst : ∀ key ∈ first, key ∈ q.done known)
    (h : Stuck g known chain (.imports importer is) m q later stack e) :
    Stuck g known chain (.imports importer (i :: is)) p q (first ++ later) stack e where
  fails := .loaded hnew hload h.fails
  opened := .inl (h.opened.elim id fun ⟨_, heq⟩ => heq ▸ List.prefix_rfl)
  asked name hname := (h.asked name hname).imp_right (List.mem_append_right _)
  unfinished := h.unfinished
  covered key hkey := by
    rcases List.mem_append.mp hkey with hkey | hkey
    · exact .inl (hfirst key hkey)
    · refine (h.covered key hkey).imp_right (Or.imp_right fun hlast => ?_)
      rw [List.getLast?_append, hlast]
      rfl

end Stuck

/-- **A run that fails asks for what a walk meets until it is broken off**, and leaves no key
unaccounted for. -/
theorem Runs.asks_until_error {task : Task} {r : Except Error Unit} {e : Error}
    (h : Runs g known chain task p r q) (hr : r = .error e)
    (hopen : ∀ name ∈ task.opened chain, name ∉ p.done known) :
    ∃ keys left stack, Asks g known chain task p q keys left ∧
      Stuck g known chain task p q keys stack e := by
  induction h with
  | nil => cases hr
  | finished => cases hr
  | tooDeep hready hdepth =>
      cases hr
      exact ⟨[], _, _, .stop, .atOnce (.tooDeep hready hdepth) (List.prefix_append _ _) hopen⟩
  | refused hready hroom hbytes he =>
      cases hr
      exact ⟨[], _, _, .stop,
        .atOnce (.refused hready hroom hbytes he) (List.prefix_append _ _) hopen⟩
  | @stopped _ _ _ q _ _ hready hroom hc _ ih =>
      obtain ⟨keys, left, stack, hasks, hstuck⟩ := ih hr hopen
      exact ⟨keys, left, stack, .file (q := q) hc rfl hasks, hstuck.file hready hroom hc⟩
  | cycle hmeets hcycle =>
      cases hr
      exact ⟨[], _, _, .stop, .atOnce (.cycle hmeets hcycle) List.prefix_rfl hopen⟩
  | skip hclosed hdone _ ih =>
      obtain ⟨keys, left, stack, hasks, hstuck⟩ := ih hr hopen
      exact ⟨keys, left, stack, hasks.skip hdone, hstuck.skip hclosed hdone⟩
  | missing hmeets hclosed hnew hfault =>
      cases hr
      exact ⟨_, _, _, .missing hclosed hnew, .missing hmeets hclosed hnew hfault hopen⟩
  | failed hload ih =>
      obtain ⟨below, left, stack, hasks, hstuck⟩ := ih hr fun name hname => by
        rcases List.mem_append.mp hname with hname | hname
        · exact hopen name hname
        · exact List.mem_singleton.mp hname ▸ hload.ready.fresh
      exact ⟨_, _, stack, hasks.failed hload.ready, hstuck.failed⟩
  | @loaded chain importer i is p m q r hnew hload hlater _ ihLater =>
      obtain ⟨below, hbelow, hdone⟩ := hload.asks rfl
      simp only [Task.finished, List.mem_singleton, Progress.done_ask] at hdone
      obtain ⟨later, left, stack, hasks, hstuck⟩ := ihLater hr fun name hname hmem => by
        rcases (hdone name).mp hmem with hmem | rfl | hmem
        · exact hopen name hname hmem
        · exact hload.ready.notMem hname
        · exact (hbelow.fresh name hmem).2 (List.mem_append_left _ hname)
      have hfirst : ∀ key ∈ importKey i.path :: below, key ∈ q.done known := fun key hkey =>
        hlater.done_subset ((hdone key).mpr (.inr (List.mem_cons.mp hkey)))
      exact ⟨_, left, stack, hbelow.loaded hload.ready hdone hasks,
        hstuck.loaded hnew hload hfirst⟩

/-! ### A whole load -/

/-- What a load of a new root asks the resolver for, and what becomes of it. -/
structure AsksInOrder (g : ImportGraph) (known set : DescriptorSet) (load : Outcome) : Prop where
  /-- No key is asked for twice. -/
  nodup : load.progress.asked.Nodup
  /-- No key is that of the root or of a file that was there. -/
  fresh : ∀ key ∈ load.progress.asked, key ∉ known.names ∧ key ∉ set.names ∧ key ≠ g.root
  /-- Behind the root, the keys are what a depth-first walk from the root meets. -/
  order : ∃ left, PreOrder g.imports (known.names ++ set.names) [g.root]
    (g.root :: load.progress.asked) left
  /-- They come first in any walk that goes on to the end. -/
  leading : ∀ whole, PreOrder g.imports (known.names ++ set.names) [g.root] whole [] →
    g.root :: load.progress.asked <+: whole
  /-- A load that succeeds walks to the end, and adds the root and all it asked for. -/
  added : load.result = .ok () →
    (∀ whole, PreOrder g.imports (known.names ++ set.names) [g.root] whole [] ↔
      whole = g.root :: load.progress.asked) ∧
    ∃ new, load.progress.set.files = set.files ++ new ∧
      ∀ name, name ∈ new.map (·.name) ↔ name = g.root ∨ name ∈ load.progress.asked
  /-- One that fails has added what it asked for, or it is open where the error comes up, or
  it is the last key.  What is open is the root or was asked for, and is not added. -/
  accounted : ∀ e, load.result = .error e →
    ∃ new stack, load.progress.set.files = set.files ++ new ∧
      Fails g known [] (.file g.root) ⟨set, []⟩ e stack ∧
      (∀ name ∈ stack, (name = g.root ∨ name ∈ load.progress.asked) ∧
        name ∉ new.map (·.name)) ∧
      ∀ key ∈ load.progress.asked, key ∈ new.map (·.name) ∨ key ∈ stack ∨
        load.progress.asked.getLast? = some key

/-- What a run asks for from nothing, a walk from the root meets behind it. -/
theorem Asks.preOrder {set : DescriptorSet} {keys left : List String}
    (hnew : g.root ∉ Progress.done known ⟨set, []⟩)
    (h : Asks g known [] (.file g.root) ⟨set, []⟩ q keys left) :
    PreOrder g.imports (known.names ++ set.names) [g.root] (g.root :: keys) left := by
  refine .visit hnew ?_
  rw [List.append_nil]
  refine h.order _ fun name => ?_
  rw [List.mem_cons, or_comm, Task.opened, List.nil_append, List.mem_singleton]
  rfl

/-- What is added is what is done and was not done before. -/
theorem Adds.mem_iff_done {keys : List String} {new : List Descriptor.File}
    (h : Adds g known keys p q new) {name : String} (hname : name ∉ p.done known) :
    name ∈ new.map (·.name) ↔ name ∈ q.done known := by
  rw [h.done, List.mem_append, or_iff_right hname]

/-- If all that is done is the root and what was asked for, then so is all that is added. -/
theorem Adds.mem_iff_asked {keys asked left : List String} {new : List Descriptor.File}
    (h : Adds g known keys p q new) (hroot : g.root ∉ p.done known)
    (hasks : Asks g known [] (.file g.root) p q asked left)
    (hdone : ∀ name, name ∈ q.done known ↔ name ∈ p.done known ∨ name = g.root ∨ name ∈ asked)
    (name : String) : name ∈ new.map (·.name) ↔ name = g.root ∨ name ∈ asked := by
  constructor
  · intro hname
    have hnew : name ∉ p.done known := h.order.fresh name hname
    exact ((hdone name).mp ((h.mem_iff_done hnew).mp hname)).resolve_left hnew
  · intro hname
    have hnew : name ∉ p.done known := by
      rcases hname with rfl | hname
      · exact hroot
      · exact (hasks.fresh name hname).1
    exact (h.mem_iff_done hnew).mpr ((hdone name).mpr (.inr hname))

/-- A run asks for what a walk meets, however it ends. -/
theorem Runs.exists_asks {task : Task} {r : Except Error Unit} (h : Runs g known chain task p r q)
    (hopen : ∀ name ∈ task.opened chain, name ∉ p.done known) :
    ∃ keys left, Asks g known chain task p q keys left := by
  cases r with
  | ok =>
      obtain ⟨keys, hasks, -⟩ := h.asks rfl
      exact ⟨keys, [], hasks⟩
  | error e =>
      obtain ⟨keys, left, stack, hasks, -⟩ := h.asks_until_error rfl hopen
      exact ⟨keys, left, hasks⟩

/-- A run from nothing asks in order, however it ends. -/
theorem Runs.asksInOrder {set : DescriptorSet} {r : Except Error Unit}
    (h : Runs g known [] (.file g.root) ⟨set, []⟩ r q) : AsksInOrder g known set ⟨r, q⟩ := by
  have hnew := h.ready.fresh
  have hopen : ∀ name ∈ (Task.file g.root).opened [], name ∉ Progress.done known ⟨set, []⟩ := by
    simpa [Task.opened] using hnew
  obtain ⟨keys, left, hasks⟩ := h.exists_asks hopen
  obtain ⟨roots, new, hadds, -⟩ := h.exists_adds
  obtain rfl : q.asked = keys := hasks.asked
  have horder := hasks.preOrder hnew
  refine ⟨horder.nodup.of_cons, fun key hkey => ?_, ⟨left, horder⟩,
    fun whole hwhole => horder.isPrefix hwhole, fun hok => ?_, fun e he => ?_⟩
  · obtain ⟨hdone, hroot⟩ := hasks.fresh key hkey
    rw [Progress.done, List.mem_append, not_or] at hdone
    exact ⟨hdone.1, hdone.2, fun heq => hroot (heq ▸ List.mem_singleton_self _)⟩
  · obtain ⟨keys, hwhole, hdone⟩ := h.asks hok
    obtain rfl : q.asked = keys := hwhole.asked
    simp only [Task.finished, List.mem_singleton] at hdone
    refine ⟨fun whole => ⟨fun h => h.unique (hwhole.preOrder hnew), fun h => ?_⟩, new, hadds.files,
      hadds.mem_iff_asked hnew hwhole hdone⟩
    exact h ▸ hwhole.preOrder hnew
  · obtain ⟨keys, left, stack, hbroken, hstuck⟩ := h.asks_until_error he hopen
    obtain rfl : q.asked = keys := hbroken.asked
    refine ⟨new, stack, hadds.files, hstuck.fails, fun name hname => ⟨?_, fun hadded => ?_⟩,
      fun key hkey => ?_⟩
    · simpa [Task.opened] using hstuck.asked name hname
    · refine hstuck.unfinished name hname ?_
      rw [hadds.done]
      exact List.mem_append_right _ hadded
    · rw [hadds.mem_iff_done (hasks.fresh key hkey).1]
      exact hstuck.covered key hkey

end Loading

open Loading

/-- **A load asks the resolver once for each file, when the file is needed.**  A root that was
there is not loaded, and nothing is asked for.  Any other root is walked from depth first, the
imports of a file in their order; the keys asked for are what the walk meets, and a load that
succeeds has added the root and just these.  Loading into a set is the case of no known files. -/
theorem loadOver_asks_in_order (known : DescriptorSet) (resolver : Resolver) (nesting : Nesting)
    (name : String) (bytes : ByteArray) (set : DescriptorSet) :
    (name ∈ known.names ∨ name ∈ set.names →
      (loadOver known resolver nesting name bytes set).result = .ok () ∧
      (loadOver known resolver nesting name bytes set).progress = ⟨set, []⟩) ∧
    (name ∉ known.names → name ∉ set.names →
      AsksInOrder ⟨name, bytes, resolver, nesting⟩ known set
        (loadOver known resolver nesting name bytes set)) := by
  let g : ImportGraph := ⟨name, bytes, resolver, nesting⟩
  rw [loadOver_eq known g set]
  refine ⟨fun hdone => ?_, fun hknown hset => ?_⟩
  · rw [loadRoot_of_done (context g known) (List.mem_append.mpr hdone)]
    exact ⟨rfl, rfl⟩
  · have hnew : g.root ∉ Progress.done known ⟨set, []⟩ := fun hmem =>
      (List.mem_append.mp hmem).elim hknown hset
    exact (runs_loadRoot hnew rfl).asksInOrder

/-- Below the root, `b` and `c` are added and `d` is open when `gone` is asked for in vain. -/
theorem broken_asks_in_order :
    let known : DescriptorSet := ⟨[.empty "e" "proto3"]⟩
    let set : DescriptorSet := ⟨[.empty "x" "proto3"]⟩
    let load := loadOver known (.ofTable broken) .nested "a" (importsOf ["b", "d", "c"]) set
    load.progress.asked = ["b", "c", "d", "gone"] ∧
    AsksInOrder ⟨"a", importsOf ["b", "d", "c"], .ofTable broken, .nested⟩ known set load := by
  intro known set load
  exact ⟨by decide +kernel, (loadOver_asks_in_order known (.ofTable broken) .nested "a"
    (importsOf ["b", "d", "c"]) set).2 (by decide) (by decide)⟩

/-- A root that is known is not added, although the load succeeds. -/
theorem known_root_is_not_added :
    let known : DescriptorSet := ⟨[.empty "a" "proto3"]⟩
    let load := loadOver known (.ofTable broken) .nested "a" (importsOf []) .empty
    load.result = .ok () ∧
    ¬ ∃ new, load.progress.set.files = DescriptorSet.empty.files ++ new ∧
      ∀ name, name ∈ new.map (·.name) ↔ name = "a" ∨ name ∈ load.progress.asked := by
  intro known load
  have hnothing : load.progress.set.files = [] := by decide +kernel
  refine ⟨Fallible.eq_ok_of_isOk (by decide +kernel), ?_⟩
  rintro ⟨new, hnew, hadded⟩
  rw [hnothing] at hnew
  obtain rfl : new = [] := hnew.symm
  exact absurd ((hadded "a").mpr (.inl rfl)) List.not_mem_nil

end Schemata
