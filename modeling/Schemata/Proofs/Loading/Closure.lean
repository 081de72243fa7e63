/-
What a load adds.

A load that succeeds appends to the set the files the root leads to, each behind the
files it imports and each as it compiles on its own.  The files that were in the set
before are a border: they are not compiled again, and what lies behind them is not
looked at.

Everything follows from two facts about a run.  What it adds is in the order of a
depth-first walk over the imports, and every file added is compiled from what the graph
says it holds.  The rest is the theory of such walks.
-/
import Schemata.Proofs.Descriptor.Set
import Schemata.Proofs.Loading.Run
import Schemata.Proofs.PostOrder

namespace Schemata

open Relation Loading Descriptor

/-! ### What a run adds -/

/-- The keys a task is about. -/
def Loading.Task.keys : Task → List String
  | .file name => [name]
  | .imports _ rest => rest.map fun i => importKey i.path

/-- Between two progresses the files `new` are added, on behalf of `keys`. -/
structure Loading.Adds (g : ImportGraph) (known : DescriptorSet) (keys : List String)
    (p q : Progress) (new : List File) : Prop where
  files : q.set.files = p.set.files ++ new
  order : PostOrder g.imports (p.done known) keys (new.map (·.name))
  compiled : ∀ f ∈ new, ∃ c, g.compiled? f.name = some c ∧ c.file = f

namespace Loading

variable {g : ImportGraph} {known : DescriptorSet} {p q : Progress}

theorem Adds.set_eq {keys : List String} {new : List File} (h : Adds g known keys p q new) :
    q.set = ⟨p.set.files ++ new⟩ := congrArg DescriptorSet.mk h.files

theorem Adds.names_eq {keys : List String} {new : List File} (h : Adds g known keys p q new) :
    q.set.names = p.set.names ++ new.map (·.name) := by
  rw [DescriptorSet.names, h.files, List.map_append]
  rfl

/-- What is added is done. -/
theorem Adds.done {keys : List String} {new : List File} (h : Adds g known keys p q new) :
    q.done known = p.done known ++ new.map (·.name) := by
  rw [Progress.done, h.names_eq, ← List.append_assoc]
  rfl

/-- A file whose name is free goes to the end of the set. -/
theorem files_add {f : File} (h : f.name ∉ p.set.names) :
    (p.add f).set.files = p.set.files ++ [f] := by
  rw [Progress.add, DescriptorSet.insert_of_notMem h]
  rfl

/-- A file that is new goes to the end of the set when its imports are done. -/
theorem Adds.finish {chain : List String} {name : String} {c : Compiled} {new : List File}
    (hready : Ready g known chain name p) (hc : g.compiled? name = some c)
    (h : Adds g known (g.imports name) p q new) :
    Adds g known [name] p (q.add c.file) (new ++ [c.file]) := by
  have hname : c.file.name = name := ImportGraph.name_of_compiled? hc
  have hfree : c.file.name ∉ q.set.names := by
    intro hmem
    have hdone : name ∈ q.done known := List.mem_append_right _ (hname ▸ hmem)
    rw [h.done] at hdone
    exact (List.mem_append.mp hdone).elim hready.fresh h.order.notMem_below
  refine ⟨?_, ?_, ?_⟩
  · rw [files_add hfree, h.files, List.append_assoc]
  · have hvisit := PostOrder.visit hready.fresh h.order (.nil _)
    simpa [hname] using hvisit
  · intro f hf
    rcases List.mem_append.mp hf with hf | hf
    · exact h.compiled f hf
    · rw [List.mem_singleton.mp hf]
      exact ⟨c, hname.symm ▸ hc, rfl⟩

/-- A file added imports what it depends on. -/
theorem Adds.dependencies {keys : List String} {new : List File} (h : Adds g known keys p q new)
    {f : File} (hf : f ∈ new) : f.dependencies.map importKey = g.imports f.name := by
  obtain ⟨c, hc, rfl⟩ := h.compiled f hf
  exact (ImportGraph.imports_eq_dependencies hc).symm

/-- The imports of a file that is added stand before it, or were done. -/
theorem Adds.mem_before {keys : List String} {new : List File} (h : Adds g known keys p q new)
    {before after : List File} {f : File} (hsplit : new = before ++ f :: after) :
    ∀ d ∈ f.dependencies, importKey d ∈ p.done known ∨ importKey d ∈ before.map (·.name) := by
  have hground := h.order.grounded
  rw [hsplit, List.map_append, List.map_cons] at hground
  refine fun d hd => hground.mem_before ?_
  rw [← h.dependencies (by simp [hsplit])]
  exact List.mem_map_of_mem hd

/-- **Whatever a run comes to, it adds the files that some keys lead to, in the order of a walk.**
None of them is open, and if the run succeeds the keys are those of its task. -/
theorem Runs.exists_adds {chain : List String} {task : Task} {r : Except Error Unit}
    (h : Runs g known chain task p r q) :
    ∃ keys new, Adds g known keys p q new ∧ (r = .ok () → keys = task.keys) ∧
      ∀ f ∈ new, f.name ∉ chain := by
  have hnothing {p q : Progress} (hq : q.set = p.set) : Adds g known [] p q [] :=
    ⟨by simp [hq], .nil _, by simp⟩
  induction h with
  | tooDeep => exact ⟨[], [], hnothing rfl, nofun, by simp⟩
  | refused => exact ⟨[], [], hnothing rfl, nofun, by simp⟩
  | stopped _ _ _ _ ih =>
      obtain ⟨keys, new, hnew, -, hopen⟩ := ih
      exact ⟨keys, new, hnew, nofun, fun f hf hmem => hopen f hf (List.mem_append_left _ hmem)⟩
  | finished hready _ hc _ ih =>
      obtain ⟨keys, new, hnew, hkeys, hopen⟩ := ih
      rw [hkeys rfl, Task.keys, ← ImportGraph.imports_of_compiled? hc] at hnew
      refine ⟨_, _, hnew.finish hready hc, fun _ => rfl, fun f hf hmem => ?_⟩
      rcases List.mem_append.mp hf with hf | hf
      · exact hopen f hf (List.mem_append_left _ hmem)
      · rw [List.mem_singleton.mp hf, ImportGraph.name_of_compiled? hc] at hmem
        exact hready.notMem hmem
  | nil => exact ⟨[], [], hnothing rfl, fun _ => rfl, by simp⟩
  | cycle => exact ⟨[], [], hnothing rfl, nofun, by simp⟩
  | missing => exact ⟨[], [], hnothing rfl, nofun, by simp⟩
  | @skip _ _ i _ _ _ _ _ hdone _ ih =>
      obtain ⟨keys, new, hnew, hkeys, hopen⟩ := ih
      refine ⟨importKey i.path :: keys, new, ?_, fun hr => congrArg _ (hkeys hr), hopen⟩
      exact ⟨hnew.files, .skip hdone hnew.order, hnew.compiled⟩
  | failed _ ih =>
      obtain ⟨keys, new, hnew, -, hopen⟩ := ih
      exact ⟨keys, new, ⟨hnew.files, hnew.order, hnew.compiled⟩, nofun, hopen⟩
  | @loaded _ _ i _ _ _ _ _ _ _ _ ihLoad ihLater =>
      obtain ⟨_, first, hfirst, hkey, hopenFirst⟩ := ihLoad
      obtain ⟨keys, second, hsecond, hkeys, hopenSecond⟩ := ihLater
      rw [hkey rfl] at hfirst
      have horder := hsecond.order
      rw [hfirst.done, Progress.done_ask] at horder
      refine ⟨importKey i.path :: keys, first ++ second, ⟨?_, ?_, ?_⟩,
        fun hr => congrArg _ (hkeys hr),
        List.forall_mem_append.mpr ⟨hopenFirst, hopenSecond⟩⟩
      · rw [hsecond.files, hfirst.files, List.append_assoc]
        rfl
      · rw [List.map_append]
        exact hfirst.order.append horder
      · exact List.forall_mem_append.mpr ⟨hfirst.compiled, hsecond.compiled⟩

/-- A run that succeeds adds the files its keys lead to, in the order of a walk. -/
theorem Runs.adds {chain : List String} {task : Task} {r : Except Error Unit}
    (h : Runs g known chain task p r q) (hr : r = .ok ()) :
    ∃ new, Adds g known task.keys p q new := by
  obtain ⟨keys, new, hnew, hkeys, -⟩ := h.exists_adds
  exact ⟨new, hkeys hr ▸ hnew⟩

/-- A load of a root that is new adds what the root leads to. -/
theorem loadRoot_adds (hnew : g.root ∉ p.done known)
    (h : (loadRoot (context g known) g.root g.bytes).from p = (.ok (), q)) :
    ∃ new, Adds g known [g.root] p q new :=
  (runs_loadRoot hnew h).adds rfl

end Loading

/-! ### The files a root leads to -/

/-- The files `files` are what the root leads to without passing a file that is done, each
behind what it imports. -/
structure IsClosure (g : ImportGraph) (done : List String) (files : List File) : Prop where
  /-- No file occurs twice. -/
  nodup : (files.map (·.name)).Nodup
  /-- No file is one that was done. -/
  fresh : ∀ f ∈ files, f.name ∉ done
  /-- The root comes last. -/
  last : (files.map (·.name)).getLast? = some g.root
  /-- Each file is what it compiles to on its own. -/
  compiled : ∀ f ∈ files, ∃ bytes schema, g.content? f.name = some bytes ∧
    compileBytes f.name bytes g.nesting = .ok ⟨schema, f⟩
  /-- What a file depends on comes before it. -/
  grounded : ∀ before f after, files = before ++ f :: after →
    ∀ d ∈ f.dependencies, importKey d ∈ done ∨ importKey d ∈ before.map (·.name)
  /-- Each file but the root is there because another one depends on it. -/
  needed : ∀ f ∈ files, f.name ≠ g.root → ∃ importer ∈ files, importer.name ≠ f.name ∧
    f.name ∈ importer.dependencies.map importKey ∧
    ReflTransGen (Step g.imports done) g.root importer.name
  /-- No file the root leads to is left out. -/
  mem_iff : ∀ name, name ∈ files.map (·.name) ↔
    ReflTransGen (Step g.imports done) g.root name
  /-- The files stand in the order a depth-first walk from the root finishes them. -/
  order_iff : ∀ names, PostOrder g.imports done [g.root] names ↔ names = files.map (·.name)

namespace Loading.Adds

variable {g : ImportGraph} {known : DescriptorSet} {p q : Progress} {new : List File}

/-- What a load of a new root adds is what the root leads to. -/
theorem mem_iff (hroot : g.root ∉ p.done known) (h : Adds g known [g.root] p q new)
    (name : String) :
    name ∈ new.map (·.name) ↔ ReflTransGen (Step g.imports (p.done known)) g.root name := by
  constructor
  · intro hname
    obtain ⟨v, hv, -, hreach⟩ := h.order.reached name hname
    rwa [← List.mem_singleton.mp hv]
  · intro hreach
    have hmem := (h.order.covers g.root List.mem_cons_self).resolve_left hroot
    exact h.order.grounded.mem_of_reflTransGen hmem hreach

/-- **What a load of a new root adds is its closure.** -/
theorem isClosure (hroot : g.root ∉ p.done known) (h : Adds g known [g.root] p q new) :
    IsClosure g (p.done known) new where
  nodup := h.order.nodup
  fresh f hf := h.order.fresh _ (List.mem_map_of_mem hf)
  last := h.order.getLast?_singleton hroot
  compiled f hf := by
    obtain ⟨⟨schema, file⟩, hc, rfl⟩ := h.compiled f hf
    obtain ⟨bytes, hbytes, hcompile⟩ := ImportGraph.compiled?_eq_some.mp hc
    exact ⟨bytes, schema, hbytes, hcompile⟩
  grounded _ _ _ hsplit := h.mem_before hsplit
  needed f hf hne := by
    have hreach := (h.mem_iff hroot f.name).mp (List.mem_map_of_mem hf)
    rcases ReflTransGen.cases_tail hreach with heq | ⟨a, ha, hstep⟩
    · exact absurd heq hne
    obtain ⟨importer, himporter, rfl⟩ := List.mem_map.mp ((h.mem_iff hroot a).mpr ha)
    refine ⟨importer, himporter, ?_, ?_, ha⟩
    · -- A file that imports itself would be a cycle.
      intro hself
      rw [hself] at hstep
      exact h.order.grounded.not_transGen (List.mem_map_of_mem hf) (.single hstep)
    · rw [h.dependencies himporter]
      exact hstep.1
  mem_iff := h.mem_iff hroot
  order_iff names := ⟨fun hnames => hnames.unique h.order, fun hnames => hnames ▸ h.order⟩

end Loading.Adds

/-! ### A whole load -/

/-- A load of a new file that succeeds adds what the file leads to. -/
theorem Loading.loadInto_adds {resolver : Resolver} {nesting : Nesting} {name : String}
    {bytes : ByteArray} {set : DescriptorSet} (hnew : name ∉ set.names)
    (hok : (loadInto resolver nesting name bytes set).result = .ok ()) :
    ∃ new, Adds ⟨name, bytes, resolver, nesting⟩ .empty [name] ⟨set, []⟩
      (loadInto resolver nesting name bytes set).progress new := by
  let g : ImportGraph := ⟨name, bytes, resolver, nesting⟩
  rw [loadInto, loadOver_eq .empty g set] at hok ⊢
  exact loadRoot_adds (g := g) hnew (Prod.ext hok rfl)

/-- What a compile comes to is what its root leads to. -/
theorem isClosure_of_compile {resolver : Resolver} {nesting : Nesting} {name : String}
    {bytes : ByteArray} {set : DescriptorSet}
    (h : (compile resolver nesting name bytes).result = .ok set) :
    IsClosure ⟨name, bytes, resolver, nesting⟩ [] set.files := by
  have hmap : (loadInto resolver nesting name bytes .empty).result.map
      (fun _ => (loadInto resolver nesting name bytes .empty).progress.set) = .ok set := h
  obtain ⟨⟨⟩, hok, rfl⟩ := Fallible.map_eq_ok.mp hmap
  obtain ⟨new, hadds⟩ := loadInto_adds List.not_mem_nil hok
  rw [hadds.files]
  exact hadds.isClosure List.not_mem_nil

/-- Every file of a compiled set but the root goes by the key of an import, and is what the answer
for that key compiles to. -/
theorem compile_resolved {resolver : Resolver} {nesting : Nesting} {name : String}
    {bytes : ByteArray} {set : DescriptorSet} {f : File}
    (h : (compile resolver nesting name bytes).result = .ok set) (hf : f ∈ set.files)
    (hroot : f.name ≠ name) :
    ∃ path content schema, f.name = importKey path ∧ resolver.resolve f.name = .ok content ∧
      compileBytes f.name content nesting = .ok ⟨schema, f⟩ := by
  have hclosure := isClosure_of_compile h
  obtain ⟨importer, -, -, hkey, -⟩ := hclosure.needed f hf hroot
  obtain ⟨path, -, hname⟩ := List.mem_map.mp hkey
  obtain ⟨content, schema, hcontent, hcompile⟩ := hclosure.compiled f hf
  rw [ImportGraph.content?_of_ne hroot] at hcontent
  exact ⟨path, content, schema, hname.symm, Fallible.toOption_eq_some.mp hcontent, hcompile⟩

/-- **A load that succeeds appends the closure of its root.**  A root that is in the set
adds nothing; any other adds the files it leads to without passing one of the set, each
compiled on its own and standing where a depth-first walk finishes it. -/
theorem loadInto_appends_closure (resolver : Resolver) (nesting : Nesting) (name : String)
    (bytes : ByteArray) (set : DescriptorSet)
    (hok : (loadInto resolver nesting name bytes set).result = .ok ()) :
    ∃ new, (loadInto resolver nesting name bytes set).progress.set.files = set.files ++ new ∧
      (name ∈ set.names → new = []) ∧
      (name ∉ set.names → IsClosure ⟨name, bytes, resolver, nesting⟩ set.names new) := by
  let g : ImportGraph := ⟨name, bytes, resolver, nesting⟩
  have hdone : Progress.done .empty ⟨set, []⟩ = set.names := rfl
  rw [loadInto, loadOver_eq .empty g set] at hok ⊢
  rcases hload : (loadRoot (context g .empty) g.root g.bytes).from ⟨set, []⟩ with ⟨r, q⟩
  rw [hload] at hok
  by_cases hmem : name ∈ set.names
  · rw [loadRoot_of_done (context g .empty) (hdone ▸ hmem)] at hload
    cases hload
    exact ⟨[], by simp, fun _ => rfl, fun hnew => absurd hmem hnew⟩
  · obtain rfl : r = .ok () := hok
    obtain ⟨new, hnew⟩ := loadRoot_adds (hdone ▸ hmem) hload
    exact ⟨new, hnew.files, fun hmem' => absurd hmem' hmem, fun _ => hnew.isClosure (hdone ▸ hmem)⟩

/-- The bytes of a file that holds nothing but imports. -/
def importsOf (paths : List String) : ByteArray :=
  ("syntax = \"proto3\";" ++
    String.join (paths.map fun path => "import \"" ++ path ++ "\";")).toUTF8

/-- The descriptor of a file that holds nothing but imports. -/
def importing (name : String) (paths : List String) : File :=
  { File.empty name "proto3" with dependencies := paths }

/-- Two files that import a third, each by a spelling of its own. -/
def diamond : Table :=
  .ofList [(⟨"b"⟩, importsOf ["c"]), (⟨"c"⟩, importsOf []), (⟨"d"⟩, importsOf ["./e", "x/../c"])]

/-- Loading the tip of the diamond where `e` is known. -/
theorem diamond_appends_closure :
    (loadInto (.ofTable diamond) .nested "a" (importsOf ["b", "d"])
      ⟨[.empty "e" "proto3"]⟩).progress.set.names = ["e", "c", "b", "d", "a"] ∧
    ∃ new, (loadInto (.ofTable diamond) .nested "a" (importsOf ["b", "d"])
        ⟨[.empty "e" "proto3"]⟩).progress.set.files = [.empty "e" "proto3"] ++ new ∧
      ("a" ∈ ["e"] → new = []) ∧
      ("a" ∉ ["e"] → IsClosure ⟨"a", importsOf ["b", "d"], .ofTable diamond, .nested⟩ ["e"] new) :=
  ⟨by decide +kernel, loadInto_appends_closure (.ofTable diamond) .nested "a" (importsOf ["b", "d"])
    ⟨[.empty "e" "proto3"]⟩ (Fallible.eq_ok_of_isOk (by decide +kernel))⟩

end Schemata
