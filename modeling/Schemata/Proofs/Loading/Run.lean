/-
Everything a load can do.

The loader threads a progress through a chain of steps that may fail.  Here it is opened
once and for all: `Runs` has one rule for every way a step can go, and `runs_loadNew`
says that a load goes by these rules.  What a load adds, which errors it ends with and
which keys it asks for are all read off the rules, by induction on them.

The rules also carry what is known where they apply: which files are open, and that the
file at hand is new.  A fact about the loader's state is thus a premise of the rule that
needs it and is established here, not in every proof that uses the rule.
-/
import Schemata.Proofs.Loading.Chain
import Schemata.Proofs.Loading.ImportGraph

namespace Schemata.Loading

/-! ### The rules -/

/-- What a load has to do: a file, or what is left of the imports of an open one. -/
inductive Task where
  | file (name : String)
  | imports (importer : String) (rest : List ImportDecl)

/-- The file `name` may be opened below the files of `chain`. -/
structure Ready (g : ImportGraph) (known : DescriptorSet) (chain : List String) (name : String)
    (p : Progress) : Prop where
  opens : g.Chain (chain ++ [name])
  fresh : name ∉ p.done known

/-- The innermost file of `chain` is `importer`, and it imports `key`. -/
structure Meets (g : ImportGraph) (chain : List String) (importer key : String) : Prop where
  opened : g.Chain chain
  last : chain.getLast? = some importer
  edge : g.Edge importer key

/-- Below the files of `chain`, a task that begins at one progress comes to a result and
another progress. -/
inductive Runs (g : ImportGraph) (known : DescriptorSet) :
    List String → Task → Progress → Except Error Unit → Progress → Prop where
  /-- A file that the resolver's bound leaves no room for. -/
  | tooDeep {chain : List String} {name : String} {p : Progress}
      (hready : Ready g known chain name p) (hdepth : g.resolver.depth ≤ chain.length) :
      Runs g known chain (.file name) p (.error (.importDepth name)) p
  /-- A file that does not compile on its own. -/
  | refused {chain : List String} {name : String} {p : Progress} {bytes : ByteArray} {e : Error}
      (hready : Ready g known chain name p) (hroom : chain.length < g.resolver.depth)
      (hbytes : g.content? name = some bytes)
      (he : compileBytes name bytes g.nesting = .error e) :
      Runs g known chain (.file name) p (.error e) p
  /-- A file with an import that fails. -/
  | stopped {chain : List String} {name : String} {p q : Progress} {c : Compiled} {e : Error}
      (hready : Ready g known chain name p) (hroom : chain.length < g.resolver.depth)
      (hc : g.compiled? name = some c)
      (himports :
        Runs g known (chain ++ [name]) (.imports name c.schema.imports) p (.error e) q) :
      Runs g known chain (.file name) p (.error e) q
  /-- A file whose imports are all done. -/
  | finished {chain : List String} {name : String} {p q : Progress} {c : Compiled}
      (hready : Ready g known chain name p) (hroom : chain.length < g.resolver.depth)
      (hc : g.compiled? name = some c)
      (himports : Runs g known (chain ++ [name]) (.imports name c.schema.imports) p (.ok ()) q) :
      Runs g known chain (.file name) p (.ok ()) (q.add c.file)
  /-- No import is left. -/
  | nil {chain : List String} {importer : String} {p : Progress} :
      Runs g known chain (.imports importer []) p (.ok ()) p
  /-- An import of an open file. -/
  | cycle {chain : List String} {importer : String} {i : ImportDecl} {is : List ImportDecl}
      {p : Progress} (hmeets : Meets g chain importer (importKey i.path))
      (hopen : importKey i.path ∈ chain) :
      Runs g known chain (.imports importer (i :: is)) p
        (.error (.importCycle (importKey i.path) chain)) p
  /-- An import of a file that is done. -/
  | skip {chain : List String} {importer : String} {i : ImportDecl} {is : List ImportDecl}
      {p q : Progress} {r : Except Error Unit}
      (hopen : importKey i.path ∉ chain) (hdone : importKey i.path ∈ p.done known)
      (hlater : Runs g known chain (.imports importer is) p r q) :
      Runs g known chain (.imports importer (i :: is)) p r q
  /-- An import nothing is found for. -/
  | missing {chain : List String} {importer : String} {i : ImportDecl} {is : List ImportDecl}
      {p : Progress} {fault : AccessFault} (hmeets : Meets g chain importer (importKey i.path))
      (hopen : importKey i.path ∉ chain) (hnew : importKey i.path ∉ p.done known)
      (hfault : g.resolver.resolve (importKey i.path) = .error fault) :
      Runs g known chain (.imports importer (i :: is)) p
        (.error (.importNotFound importer i.line i.path fault.message)) (p.ask (importKey i.path))
  /-- An import that fails. -/
  | failed {chain : List String} {importer : String} {i : ImportDecl} {is : List ImportDecl}
      {p q : Progress} {e : Error}
      (hload : Runs g known chain (.file (importKey i.path)) (p.ask (importKey i.path))
        (.error e) q) :
      Runs g known chain (.imports importer (i :: is)) p (.error e) q
  /-- An import that is loaded. -/
  | loaded {chain : List String} {importer : String} {i : ImportDecl} {is : List ImportDecl}
      {p m q : Progress} {r : Except Error Unit}
      (hnew : importKey i.path ∉ p.done known)
      (hload : Runs g known chain (.file (importKey i.path)) (p.ask (importKey i.path)) (.ok ()) m)
      (hlater : Runs g known chain (.imports importer is) m r q) :
      Runs g known chain (.imports importer (i :: is)) p r q

/-! ### Loads go by the rules -/

variable {g : ImportGraph} {known : DescriptorSet}

/-- What a load of the graph's root depends on. -/
def context (g : ImportGraph) (known : DescriptorSet) : Context :=
  ⟨g.resolver, g.nesting, known⟩

/-- The imports of an open file go by the rules if the files they open do. -/
theorem runs_imports (load : String → ByteArray → Load Unit) {chain : List String}
    (importer : String) (hchain : g.Chain chain) (hlast : chain.getLast? = some importer)
    (hload : ∀ key bytes p r q, Ready g known chain key p → g.content? key = some bytes →
      (load key bytes).from p = (r, q) → Runs g known chain (.file key) p r q) :
    ∀ (is : List ImportDecl) (p : Progress) (r : Except Error Unit) (q : Progress),
      (∀ i ∈ is, g.Edge importer (importKey i.path)) →
      Load.from (is.forM (follow (context g known) load chain importer)) p = (r, q) →
      Runs g known chain (.imports importer is) p r q := by
  intro is
  induction is with
  | nil =>
      intro p r q _ h
      cases h
      exact .nil
  | cons i is ih =>
      intro p r q hedges h
      have hedge := hedges i List.mem_cons_self
      have hlater := fun m => ih m r q fun j hj => hedges j (List.mem_cons_of_mem i hj)
      rw [forM_cons] at h
      by_cases hopen : importKey i.path ∈ chain
      · rw [from_bind_error (follow_of_open hopen)] at h
        cases h
        exact .cycle ⟨hchain, hlast, hedge⟩ hopen
      by_cases hdone : importKey i.path ∈ p.done known
      · rw [from_bind_ok (follow_of_done hopen hdone)] at h
        exact .skip hopen hdone (hlater p h)
      cases hresolve : g.resolver.resolve (importKey i.path) with
      | error fault =>
          rw [from_bind_error (follow_of_missing hopen hdone hresolve)] at h
          cases h
          exact .missing ⟨hchain, hlast, hedge⟩ hopen hdone hresolve
      | ok bytes =>
          have hbytes : g.content? (importKey i.path) = some bytes := by
            rw [hchain.content?_of_notMem hopen, hresolve]
            rfl
          have hready : Ready g known chain (importKey i.path) (p.ask (importKey i.path)) :=
            ⟨hchain.snoc hlast hedge hopen hbytes, hdone⟩
          have hfollow : (follow (context g known) load chain importer i).from p =
              (load (importKey i.path) bytes).from (p.ask (importKey i.path)) :=
            follow_of_resolved hopen hdone hresolve
          rcases hfile : (load (importKey i.path) bytes).from (p.ask (importKey i.path)) with
            ⟨e | ⟨⟩, m⟩
          · rw [from_bind_error (hfollow.trans hfile)] at h
            cases h
            exact .failed (hload _ _ _ _ _ hready hbytes hfile)
          · rw [from_bind_ok (hfollow.trans hfile)] at h
            exact .loaded hdone (hload _ _ _ _ _ hready hbytes hfile) (hlater m h)

/-- **A load goes by the rules.**  The room left and the files open make up the bound. -/
theorem runs_loadNew (depth : Nat) :
    ∀ (chain : List String) (name : String) (bytes : ByteArray) (p : Progress)
      (r : Except Error Unit) (q : Progress), depth + chain.length = g.resolver.depth →
      Ready g known chain name p → g.content? name = some bytes →
      (loadNew (context g known) depth chain name bytes).from p = (r, q) →
      Runs g known chain (.file name) p r q := by
  induction depth with
  | zero =>
      intro chain name bytes p r q hdepth hready _ h
      cases h
      exact .tooDeep hready (by omega)
  | succ depth ih =>
      intro chain name bytes p r q hdepth hready hbytes h
      have hopen : chain.length < g.resolver.depth := by omega
      cases hcompile : compileBytes name bytes g.nesting with
      | error e =>
          rw [loadNew_of_refused (context g known) hcompile] at h
          cases h
          exact .refused hready hopen hbytes hcompile
      | ok c =>
          have hc : g.compiled? name = some c :=
            ImportGraph.compiled?_eq_some.mpr ⟨bytes, hbytes, hcompile⟩
          have hedges : ∀ i ∈ c.schema.imports, g.Edge name (importKey i.path) := by
            intro i hi
            rw [ImportGraph.Edge, ImportGraph.imports_of_compiled? hc]
            exact List.mem_map_of_mem hi
          have hroom : depth + (chain ++ [name]).length = g.resolver.depth := by
            rw [List.length_append, List.length_singleton]
            omega
          have himports := runs_imports (loadNew (context g known) depth (chain ++ [name])) name
            hready.opens (by simp) (fun key bytes p r q => ih _ key bytes p r q hroom)
            c.schema.imports p
          rw [loadNew_of_compiled (context g known) hcompile] at h
          rcases hall : Load.from (c.schema.imports.forM
            (follow (context g known) (loadNew (context g known) depth (chain ++ [name]))
              (chain ++ [name]) name)) p with ⟨e | ⟨⟩, m⟩
          · rw [from_bind_error hall] at h
            cases h
            exact .stopped hready hopen hc (himports _ _ hedges hall)
          · rw [from_bind_ok hall] at h
            cases h
            exact .finished hready hopen hc (himports _ _ hedges hall)

/-- A load of a root that is new goes by the rules. -/
theorem runs_loadRoot {p : Progress} {r : Except Error Unit} {q : Progress}
    (hnew : g.root ∉ p.done known)
    (h : (loadRoot (context g known) g.root g.bytes).from p = (r, q)) :
    Runs g known [] (.file g.root) p r q := by
  rw [loadRoot_of_new (context g known) hnew] at h
  exact runs_loadNew _ [] g.root g.bytes p r q rfl ⟨g.chain_root, hnew⟩ g.content?_root h

/-! ### The rules are exact

Nothing the rules allow is out of a load's reach: what they derive, a load comes to.
-/

theorem Runs.ready {chain : List String} {name : String} {p : Progress} {r : Except Error Unit}
    {q : Progress} (h : Runs g known chain (.file name) p r q) : Ready g known chain name p := by
  cases h <;> assumption

/-- A file that is to be opened is not open yet. -/
theorem Ready.notMem {chain : List String} {name : String} {p : Progress}
    (h : Ready g known chain name p) : name ∉ chain := h.opens.notMem

/-- A file opened below others is one the resolver finds. -/
theorem Ready.resolved {chain : List String} {name : String} {p : Progress}
    (h : Ready g known chain name p) (hne : chain ≠ []) :
    ∃ bytes, g.content? name = some bytes ∧ g.resolver.resolve name = .ok bytes := by
  obtain ⟨bytes, hbytes⟩ := h.opens.content name (by simp)
  have hhead := h.opens.head
  rw [List.head?_append_of_ne_nil _ hne] at hhead
  have hother : name ≠ g.root := fun hroot => h.notMem (hroot ▸ List.mem_of_mem_head? hhead)
  refine ⟨bytes, hbytes, ?_⟩
  rw [ImportGraph.content?_of_ne hother] at hbytes
  exact Fallible.toOption_eq_some.mp hbytes

/-- Below the files of `chain`, of which there may be so many more, a task comes to a result
and a progress. -/
def Comes (g : ImportGraph) (known : DescriptorSet) (depth : Nat) (chain : List String)
    (p : Progress) (r : Except Error Unit) (q : Progress) : Task → Prop
  | .file name => ∀ bytes, g.content? name = some bytes →
      (loadNew (context g known) depth chain name bytes).from p = (r, q)
  | .imports importer rest => chain ≠ [] →
      Load.from (rest.forM (follow (context g known) (loadNew (context g known) depth chain) chain
        importer)) p = (r, q)

/-- A load comes to what the rules derive. -/
theorem Runs.comes {chain : List String} {task : Task} {p : Progress} {r : Except Error Unit}
    {q : Progress} (h : Runs g known chain task p r q) :
    ∀ depth, depth + chain.length = g.resolver.depth → Comes g known depth chain p r q task := by
  induction h with
  | tooDeep hready hdepth =>
      intro depth hsum bytes _
      obtain rfl : depth = 0 := by omega
      rfl
  | @refused chain name p bytes e hready hroom hbytes he =>
      intro depth hsum bytes' hbytes'
      obtain rfl : bytes = bytes' := Option.some.inj (hbytes.symm.trans hbytes')
      obtain ⟨depth, rfl⟩ : ∃ d, depth = d + 1 := ⟨depth - 1, by omega⟩
      exact loadNew_of_refused (context g known) he
  | stopped hready hroom hc _ ih =>
      intro depth hsum bytes hbytes
      obtain ⟨depth, rfl⟩ : ∃ d, depth = d + 1 := ⟨depth - 1, by omega⟩
      rw [loadNew_of_compiled (context g known) (ImportGraph.compileBytes_of_compiled? hc hbytes)]
      exact from_bind_error (ih depth (by rw [List.length_append, List.length_singleton]; omega)
        (by simp))
  | finished hready hroom hc _ ih =>
      intro depth hsum bytes hbytes
      obtain ⟨depth, rfl⟩ : ∃ d, depth = d + 1 := ⟨depth - 1, by omega⟩
      rw [loadNew_of_compiled (context g known) (ImportGraph.compileBytes_of_compiled? hc hbytes)]
      exact from_bind_ok (ih depth (by rw [List.length_append, List.length_singleton]; omega)
        (by simp))
  | nil => exact fun depth _ _ => rfl
  | cycle hmeets hopen =>
      intro depth _ _
      rw [forM_cons]
      exact from_bind_error (follow_of_open hopen)
  | skip hopen hdone _ ih =>
      intro depth hsum hne
      rw [forM_cons, from_bind_ok (follow_of_done hopen hdone)]
      exact ih depth hsum hne
  | missing hmeets hopen hnew hfault =>
      intro depth _ _
      rw [forM_cons]
      exact from_bind_error (follow_of_missing hopen hnew hfault)
  | failed hload ih =>
      intro depth hsum hne
      obtain ⟨bytes, hbytes, hresolve⟩ := hload.ready.resolved hne
      rw [forM_cons]
      refine from_bind_error (Eq.trans ?_ (ih depth hsum bytes hbytes))
      exact follow_of_resolved hload.ready.notMem hload.ready.fresh hresolve
  | loaded hnew hload _ ihLoad ihLater =>
      intro depth hsum hne
      obtain ⟨bytes, hbytes, hresolve⟩ := hload.ready.resolved hne
      rw [forM_cons, from_bind_ok ((follow_of_resolved hload.ready.notMem hnew hresolve).trans
        (ihLoad depth hsum bytes hbytes))]
      exact ihLater depth hsum hne

/-- **Of a new root the rules derive what a load comes to, and nothing else.** -/
theorem runs_loadRoot_iff {p : Progress} {r : Except Error Unit} {q : Progress}
    (hnew : g.root ∉ p.done known) :
    Runs g known [] (.file g.root) p r q ↔
      (loadRoot (context g known) g.root g.bytes).from p = (r, q) := by
  refine ⟨fun h => ?_, runs_loadRoot hnew⟩
  rw [loadRoot_of_new (context g known) hnew]
  exact h.comes g.resolver.depth rfl g.bytes g.content?_root

/-! ### What a run leaves alone

A set only ever changes by a finished file, and that file compiled under a name no known
file has.  What holds of a set before such a change and after it holds of every set on
the way, also of the one an error leaves behind.
-/

theorem Runs.preserves {P : DescriptorSet → Prop} {chain : List String} {task : Task}
    {p q : Progress} {r : Except Error Unit}
    (hadd : ∀ {set : DescriptorSet} {name : String} {c : Compiled},
      g.compiled? name = some c → c.file.name ∉ known.names → P set → P (set.insert c.file))
    (h : Runs g known chain task p r q) (hp : P p.set) : P q.set := by
  induction h with
  | tooDeep => exact hp
  | refused => exact hp
  | stopped _ _ _ _ ih => exact ih hp
  | finished hready _ hc _ ih =>
      refine hadd hc ?_ (ih hp)
      rw [ImportGraph.name_of_compiled? hc]
      exact fun hmem => hready.fresh (List.mem_append_left _ hmem)
  | nil => exact hp
  | cycle => exact hp
  | skip _ _ _ ih => exact ih hp
  | missing => exact hp
  | failed _ ih => exact ih hp
  | loaded _ _ _ ihLoad ihLater => exact ihLater (ihLoad hp)

theorem loadOver_eq (known : DescriptorSet) (g : ImportGraph) (set : DescriptorSet) :
    loadOver known g.resolver g.nesting g.root g.bytes set =
      ⟨((loadRoot (context g known) g.root g.bytes).from ⟨set, []⟩).1,
        ((loadRoot (context g known) g.root g.bytes).from ⟨set, []⟩).2⟩ :=
  loadOver_eq_from known g.resolver g.nesting g.root g.bytes set

/-- What the loader comes to with a new root goes by the rules. -/
theorem runs_loadOver {set : DescriptorSet} (hnew : g.root ∉ Progress.done known ⟨set, []⟩) :
    let load := loadOver known g.resolver g.nesting g.root g.bytes set
    Runs g known [] (.file g.root) ⟨set, []⟩ load.result load.progress := by
  intro load
  refine runs_loadRoot hnew ?_
  rw [show load = _ from loadOver_eq known g set]

/-- **What every finished file preserves, a load preserves, however it ends.** -/
theorem loadOver_preserves {P : DescriptorSet → Prop} (known : DescriptorSet)
    (resolver : Resolver) (nesting : Nesting) (name : String) (bytes : ByteArray)
    (hadd : ∀ {set : DescriptorSet} {name : String} {bytes : ByteArray} {c : Compiled},
      compileBytes name bytes nesting = .ok c → c.file.name ∉ known.names → P set →
        P (set.insert c.file))
    {set : DescriptorSet} (hset : P set) :
    P (loadOver known resolver nesting name bytes set).progress.set := by
  let g : ImportGraph := ⟨name, bytes, resolver, nesting⟩
  rw [loadOver_eq known g set]
  by_cases hdone : name ∈ Progress.done known ⟨set, []⟩
  · rw [loadRoot_of_done (context g known) hdone]
    exact hset
  · refine (runs_loadRoot (g := g) hdone rfl).preserves (fun hc hnew hset => ?_) hset
    obtain ⟨bytes, -, hc⟩ := ImportGraph.compiled?_eq_some.mp hc
    exact hadd hc hnew hset

/-- A file that imports nothing is compiled to a set of its own. -/
theorem compile_of_no_imports {resolver : Resolver} {nesting : Nesting} {name : String}
    {bytes : ByteArray} {c : Compiled} (hdepth : 0 < resolver.depth)
    (hc : compileBytes name bytes nesting = .ok c) (himports : c.schema.imports = []) :
    (compile resolver nesting name bytes).result = .ok ⟨[c.file]⟩ := by
  let g : ImportGraph := ⟨name, bytes, resolver, nesting⟩
  obtain ⟨depth, hdepth⟩ : ∃ depth, (context g .empty).resolver.depth = depth + 1 :=
    ⟨resolver.depth - 1, (Nat.sub_add_cancel hdepth).symm⟩
  have hnew : name ∉ Progress.done (context g .empty).known ⟨.empty, []⟩ := List.not_mem_nil
  have hcompiles : compileBytes name bytes (context g .empty).nesting = .ok c := hc
  have hfile : (loadRoot (context g .empty) name bytes).from ⟨.empty, []⟩ =
      (finish c.file).from ⟨.empty, []⟩ := by
    rw [loadRoot_of_new _ hnew, hdepth, loadNew_of_compiled _ hcompiles, himports]
    exact from_bind_ok rfl
  rw [compile, loadInto, loadOver_eq .empty g .empty, hfile]
  rfl

end Schemata.Loading
