/-
Loads below a chain of open files.

The loader keeps the names of the files that are open, in order and as a set.  It looks an import
up before it asks for it, and loading what was found looks the file up again.  Here a load is
handed the chain of open files and looks each import up once: `loadNew` loads a file that is
known to be new.

`Mirrors` relates the two, and `mirrors_loadFile` is the induction: as long as nothing fails, the
names kept are those of the chain, in both places, and a file that an import leads to is new when
it is loaded.  So the second look changes nothing, and what is said of loads is proved of
`loadNew` and holds of the loader by `loadOver_eq_from`.
-/
import Schemata.Loading
import Std.Data.TreeSet.Lemmas

namespace Schemata

/-- The resolvers give the same answer for every import, and the same bound. -/
structure Resolver.Agrees (R R' : Resolver) : Prop where
  resolve : ∀ path, R.resolve (importKey path) = R'.resolve (importKey path)
  depth : R.depth = R'.depth

namespace Loading

/-! ### Loads that are handed the chain -/

/-- A load that keeps a progress and nothing else. -/
abbrev Load := ExceptT Error (StateM Progress)

/-- The file is in the set or among those known. -/
def isCompiled (ctx : Context) (name : String) : Load Bool := do
  return (← get).set.contains name || ctx.known.contains name

/-- Asks the resolver for an import of the file `importer`. -/
def ask (ctx : Context) (importer : String) (i : ImportDecl) : Load ByteArray := do
  modify fun p => { p with asked := p.asked ++ [importKey i.path] }
  match ctx.resolver.resolve (importKey i.path) with
  | .ok bytes => return bytes
  | .error fault => throw (.importNotFound importer i.line i.path fault.message)

/-- Adds a finished file to the set. -/
def finish (file : Descriptor.File) : Load Unit :=
  modify fun p => { p with set := p.set.insert file }

/-- Follows one import of the innermost file of the chain, loading it by `load` if it
is new. -/
def follow (ctx : Context) (load : String → ByteArray → Load Unit) (chain : List String)
    (importer : String) (i : ImportDecl) : Load Unit := do
  if importKey i.path ∈ chain then throw (.importCycle (importKey i.path) chain)
  else if ← isCompiled ctx (importKey i.path) then return
  else load (importKey i.path) (← ask ctx importer i)

/-- Loads a new file, below the files of the chain, which may grow by so many files. -/
def loadNew (ctx : Context) : Nat → List String → String → ByteArray → Load Unit
  | 0, _, name, _ => throw (.importDepth name)
  | depth + 1, chain, name, bytes => do
    let compiled ← ExceptT.mk (pure (compileBytes name bytes ctx.nesting))
    compiled.schema.imports.forM
      (follow ctx (loadNew ctx depth (chain ++ [name])) (chain ++ [name]) name)
    finish compiled.file

/-- Loads the outermost file, unless it counts as compiled. -/
def loadRoot (ctx : Context) (name : String) (bytes : ByteArray) : Load Unit := do
  if ← isCompiled ctx name then return
  else loadNew ctx ctx.resolver.depth [] name bytes

/-! ### Loads as functions of what they keep -/

section

variable {σ α β : Type} {s t : σ} {x : ExceptT Error (StateM σ) α}
  {f : α → ExceptT Error (StateM σ) β}

theorem run_bind_ok {a : α} (h : x.run.run s = (.ok a, t)) :
    (x >>= f).run.run s = (f a).run.run t := by
  rw [ExceptT.run_bind, StateT.run_bind, h]
  rfl

theorem run_bind_error {e : Error} (h : x.run.run s = (.error e, t)) :
    (x >>= f).run.run s = (.error e, t) := by
  rw [ExceptT.run_bind, StateT.run_bind, h]
  rfl

end

variable {α β : Type} {p q : Progress}

/-- What a load comes to from a progress. -/
def Load.from (load : Load α) (p : Progress) : Except Error α × Progress := load.run.run p

/-- The progress with one more key asked for. -/
def Progress.ask (p : Progress) (key : String) : Progress := { p with asked := p.asked ++ [key] }

/-- The progress with a finished file. -/
def Progress.add (p : Progress) (file : Descriptor.File) : Progress :=
  { p with set := p.set.insert file }

/-- The names of the files that count as compiled. -/
def Progress.done (known : DescriptorSet) (p : Progress) : List String :=
  known.names ++ p.set.names

@[simp] theorem Progress.done_ask (known : DescriptorSet) (p : Progress) (key : String) :
    (p.ask key).done known = p.done known := rfl

/-- A file counts as compiled if the set or the known set has its name. -/
theorem isCompiled_iff {known : DescriptorSet} {name : String} :
    (p.set.contains name || known.contains name) = true ↔ name ∈ p.done known := by
  simp [Progress.done, or_comm]

theorem from_bind_ok {x : Load α} {f : α → Load β} {a : α} (h : x.from p = (.ok a, q)) :
    (x >>= f).from p = (f a).from q :=
  run_bind_ok h

theorem from_bind_error {x : Load α} {f : α → Load β} {e : Error}
    (h : x.from p = (.error e, q)) : (x >>= f).from p = (.error e, q) :=
  run_bind_error h

theorem forM_cons {m : Type → Type} [Monad m] {f : ImportDecl → m Unit} {i : ImportDecl}
    {is : List ImportDecl} : (i :: is).forM f = f i >>= fun _ => is.forM f := rfl

/-! ### One import

An import is a cycle, or passed over, or asked for; which of the three is decided in this
order.
-/

section

variable {ctx : Context} {load : String → ByteArray → Load Unit} {chain : List String}
  {importer : String} {i : ImportDecl}

theorem from_isCompiled {name : String} {b : Bool}
    (h : (p.set.contains name || ctx.known.contains name) = b) :
    (isCompiled ctx name).from p = (.ok b, p) := by
  rw [← h]
  rfl

theorem follow_of_open (hopen : importKey i.path ∈ chain) :
    (follow ctx load chain importer i).from p =
      (.error (.importCycle (importKey i.path) chain), p) := by
  rw [follow, if_pos hopen]
  rfl

theorem follow_of_done (hopen : importKey i.path ∉ chain)
    (hdone : importKey i.path ∈ p.done ctx.known) :
    (follow ctx load chain importer i).from p = (.ok (), p) := by
  rw [follow, if_neg hopen, from_bind_ok (from_isCompiled (isCompiled_iff.mpr hdone)),
    if_pos rfl]
  rfl

theorem follow_of_new (hopen : importKey i.path ∉ chain)
    (hnew : importKey i.path ∉ p.done ctx.known) :
    (follow ctx load chain importer i).from p =
      (ask ctx importer i >>= load (importKey i.path)).from p := by
  rw [follow, if_neg hopen,
    from_bind_ok (from_isCompiled (Bool.eq_false_iff.mpr (mt isCompiled_iff.mp hnew))),
    if_neg (by simp)]

theorem follow_of_missing {fault : AccessFault} (hopen : importKey i.path ∉ chain)
    (hnew : importKey i.path ∉ p.done ctx.known)
    (hfault : ctx.resolver.resolve (importKey i.path) = .error fault) :
    (follow ctx load chain importer i).from p =
      (.error (.importNotFound importer i.line i.path fault.message),
        p.ask (importKey i.path)) := by
  rw [follow_of_new hopen hnew]
  apply from_bind_error
  rw [ask, hfault]
  rfl

theorem follow_of_resolved {bytes : ByteArray} (hopen : importKey i.path ∉ chain)
    (hnew : importKey i.path ∉ p.done ctx.known)
    (hbytes : ctx.resolver.resolve (importKey i.path) = .ok bytes) :
    (follow ctx load chain importer i).from p =
      (load (importKey i.path) bytes).from (p.ask (importKey i.path)) := by
  rw [follow_of_new hopen hnew]
  apply from_bind_ok
  rw [ask, hbytes]
  rfl

end

/-! ### One file -/

section

variable (ctx : Context) {depth : Nat} {chain : List String} {name : String}
  {bytes : ByteArray}

theorem loadNew_of_refused {e : Error} (h : compileBytes name bytes ctx.nesting = .error e) :
    (loadNew ctx (depth + 1) chain name bytes).from p = (.error e, p) := by
  rw [loadNew, h]
  exact from_bind_error rfl

theorem loadNew_of_compiled {c : Compiled} (h : compileBytes name bytes ctx.nesting = .ok c) :
    (loadNew ctx (depth + 1) chain name bytes).from p =
      (do
        c.schema.imports.forM
          (follow ctx (loadNew ctx depth (chain ++ [name])) (chain ++ [name]) name)
        finish c.file : Load Unit).from p := by
  rw [loadNew, h]
  exact from_bind_ok rfl

/-- A root that counts as compiled is not loaded. -/
theorem loadRoot_of_done (hdone : name ∈ p.done ctx.known) :
    (loadRoot ctx name bytes).from p = (.ok (), p) := by
  rw [loadRoot, from_bind_ok (from_isCompiled (isCompiled_iff.mpr hdone)), if_pos rfl]
  rfl

theorem loadRoot_of_new (hnew : name ∉ p.done ctx.known) :
    (loadRoot ctx name bytes).from p =
      (loadNew ctx ctx.resolver.depth [] name bytes).from p := by
  rw [loadRoot, from_bind_ok (from_isCompiled (Bool.eq_false_iff.mpr (mt isCompiled_iff.mp hnew))),
    if_neg (by simp)]

end

/-! ### The loader goes along

Entering a file puts its name in both places and leaving it takes it out of both, so between the
two the chain is longer by one file and afterwards it is what it was.
-/

/-- The state has the progress, and the files of the chain are open in it. -/
structure Below (chain : List String) (p : Progress) (s : State) : Prop where
  progress : s.toProgress = p
  stack : s.stack = chain
  opened : ∀ name, name ∈ s.opened ↔ name ∈ chain

namespace Below

variable {chain : List String} {s : State}

theorem ask (h : Below chain p s) (key : String) :
    Below chain (p.ask key) { s with asked := s.asked ++ [key] } where
  progress := by
    rw [← h.progress]
    rfl
  stack := h.stack
  opened := h.opened

theorem add (h : Below chain p s) (file : Descriptor.File) :
    Below chain (p.add file) { s with set := s.set.insert file } where
  progress := by
    rw [← h.progress]
    rfl
  stack := h.stack
  opened := h.opened

theorem enter (h : Below chain p s) (name : String) :
    Below (chain ++ [name]) p
      { s with stack := s.stack ++ [name], opened := s.opened.insert name } where
  progress := h.progress
  stack := congrArg (· ++ [name]) h.stack
  opened other := by
    rw [Std.TreeSet.mem_insert, Std.LawfulEqCmp.compare_eq_iff_eq, h.opened other, List.mem_append,
      List.mem_singleton, or_comm, eq_comm]

/-- What was entered is left again; its name was not in the chain before. -/
theorem leave {name : String} (h : Below (chain ++ [name]) p s) (hopen : name ∉ chain) :
    Below chain p { s with stack := s.stack.dropLast, opened := s.opened.erase name } where
  progress := h.progress
  stack := by
    rw [h.stack]
    exact List.dropLast_concat
  opened other := by
    simp only [Std.TreeSet.mem_erase, h.opened other, List.mem_append, List.mem_singleton, ne_eq,
      Std.LawfulEqCmp.compare_eq_iff_eq]
    constructor
    · rintro ⟨hne, hmem | rfl⟩
      · exact hmem
      · exact absurd rfl hne
    · exact fun hmem => ⟨fun he => hopen (he ▸ hmem), .inl hmem⟩

end Below

/-- What the loader comes to beside what a load below the chain comes to: the same result and
progress, with the same files open unless it is an error. -/
inductive Mirrors (chain : List String) :
    Except Error α × State → Except Error α × Progress → Prop where
  | ok {p : Progress} {s : State} (a : α) (h : Below chain p s) :
      Mirrors chain (.ok a, s) (.ok a, p)
  | error (e : Error) (s : State) : Mirrors chain (.error e, s) (.error e, s.toProgress)

section

variable {ctx : Context} {chain : List String} {name : String} {s : State}

/-- What is done next may stand below another chain. -/
theorem Mirrors.bind {after : List String} {x : Loader α} {y : Load α} {f : α → Loader β}
    {g : α → Load β} (h : Mirrors chain (x.run.run s) (y.from p))
    (hf : ∀ a q t, Below chain q t → Mirrors after ((f a).run.run t) ((g a).from q)) :
    Mirrors after ((x >>= f).run.run s) ((y >>= g).from p) := by
  generalize hx : x.run.run s = rx at h
  generalize hy : y.from p = ry at h
  cases h with
  | ok a hbelow =>
      rw [run_bind_ok hx, from_bind_ok hy]
      exact hf a _ _ hbelow
  | error e s =>
      rw [run_bind_error hx, from_bind_error hy]
      exact .error e s

theorem Mirrors.forM {f : ImportDecl → Loader Unit} {g : ImportDecl → Load Unit}
    (h : ∀ i q t, Below chain q t → Mirrors chain ((f i).run.run t) ((g i).from q))
    (is : List ImportDecl) (hbelow : Below chain p s) :
    Mirrors chain (ExceptT.run (is.forM f) |>.run s) (Load.from (is.forM g) p) := by
  induction is generalizing p s with
  | nil => exact .ok () hbelow
  | cons i is ih =>
      rw [forM_cons, forM_cons]
      exact (h i p s hbelow).bind fun _ q t ht => ih ht

variable {work : Loader Unit}

theorem unlessMet_of_open (hbelow : Below chain p s) (hopen : name ∈ chain) :
    (Loader.unlessMet ctx name work).run.run s = (.error (.importCycle name chain), s) := by
  refine (run_bind_ok (x := get) rfl).trans ?_
  rw [if_pos ((hbelow.opened name).mpr hopen), hbelow.stack]
  rfl

theorem unlessMet_of_done (hbelow : Below chain p s) (hopen : name ∉ chain)
    (hdone : name ∈ p.done ctx.known) :
    (Loader.unlessMet ctx name work).run.run s = (.ok (), s) := by
  obtain rfl := hbelow.progress
  refine (run_bind_ok (x := get) rfl).trans ?_
  rw [if_neg (mt (hbelow.opened name).mp hopen), if_pos (isCompiled_iff.mpr hdone)]
  rfl

theorem loadFile_of_done {depth : Nat} {bytes : ByteArray} (hbelow : Below chain p s)
    (hopen : name ∉ chain) (hdone : name ∈ p.done ctx.known) :
    (Loader.loadFile ctx depth name bytes).run.run s = (.ok (), s) := by
  cases depth <;> exact unlessMet_of_done hbelow hopen hdone

/-- What is new is set to work on. -/
theorem unlessMet_of_new (hbelow : Below chain p s) (hopen : name ∉ chain)
    (hnew : name ∉ p.done ctx.known) :
    (Loader.unlessMet ctx name work).run.run s = work.run.run s := by
  obtain rfl := hbelow.progress
  refine (run_bind_ok (x := get) rfl).trans ?_
  rw [if_neg (mt (hbelow.opened name).mp hopen), if_neg (mt isCompiled_iff.mp hnew)]

/-- Following an import goes along if loading a new file does. -/
theorem mirrors_follow {load : String → ByteArray → Loader Unit}
    {load' : String → ByteArray → Load Unit} (importer : String)
    (hload : ∀ key bytes q t, Below chain q t → key ∉ chain → key ∉ q.done ctx.known →
      Mirrors chain ((load key bytes).run.run t) ((load' key bytes).from q))
    (i : ImportDecl) (hbelow : Below chain p s) :
    Mirrors chain ((Loader.follow ctx load importer i).run.run s)
      ((follow ctx load' chain importer i).from p) := by
  by_cases hopen : importKey i.path ∈ chain
  · rw [Loader.follow, unlessMet_of_open hbelow hopen, follow_of_open hopen, ← hbelow.progress]
    exact .error _ s
  by_cases hdone : importKey i.path ∈ p.done ctx.known
  · rw [Loader.follow, unlessMet_of_done hbelow hopen hdone, follow_of_done hopen hdone]
    exact .ok () hbelow
  rw [Loader.follow, unlessMet_of_new hbelow hopen hdone]
  have hafter := hbelow.ask (importKey i.path)
  cases hresolve : ctx.resolver.resolve (importKey i.path) with
  | error fault =>
      rw [follow_of_missing hopen hdone hresolve, ← hafter.progress]
      rw [run_bind_error (by rw [Loader.ask, hresolve]; rfl)]
      exact .error _ _
  | ok bytes =>
      rw [follow_of_resolved hopen hdone hresolve,
        run_bind_ok (by rw [Loader.ask, hresolve]; rfl)]
      exact hload _ bytes _ _ hafter hopen hdone

variable {depth : Nat} {bytes : ByteArray}

theorem loadFile_of_refused {e : Error} (hbelow : Below chain p s) (hopen : name ∉ chain)
    (hnew : name ∉ p.done ctx.known) (hcompile : compileBytes name bytes ctx.nesting = .error e) :
    (Loader.loadFile ctx (depth + 1) name bytes).run.run s = (.error e, s) := by
  rw [Loader.loadFile, unlessMet_of_new hbelow hopen hnew, hcompile]
  exact run_bind_error rfl

/-- A file that compiles is entered, and left when its imports are done. -/
theorem loadFile_of_compiled {c : Compiled} (hbelow : Below chain p s) (hopen : name ∉ chain)
    (hnew : name ∉ p.done ctx.known) (hcompile : compileBytes name bytes ctx.nesting = .ok c) :
    (Loader.loadFile ctx (depth + 1) name bytes).run.run s =
      (do
        c.schema.imports.forM (Loader.follow ctx (Loader.loadFile ctx depth) name)
        Loader.leave name
        Loader.finish c.file : Loader Unit).run.run
        { s with stack := s.stack ++ [name], opened := s.opened.insert name } := by
  rw [Loader.loadFile, unlessMet_of_new hbelow hopen hnew, hcompile]
  exact (run_bind_ok rfl).trans (run_bind_ok rfl)

end

/-- **The loader, set to a new file, goes along with a load below the chain.** -/
theorem mirrors_loadFile (ctx : Context) (depth : Nat) :
    ∀ (chain : List String) (name : String) (bytes : ByteArray) (p : Progress) (s : State),
      Below chain p s → name ∉ chain → name ∉ p.done ctx.known →
      Mirrors chain ((Loader.loadFile ctx depth name bytes).run.run s)
        ((loadNew ctx depth chain name bytes).from p) := by
  induction depth with
  | zero =>
      intro chain name bytes p s hbelow hopen hnew
      rw [Loader.loadFile, unlessMet_of_new hbelow hopen hnew, ← hbelow.progress]
      exact .error _ s
  | succ depth ih =>
      intro chain name bytes p s hbelow hopen hnew
      cases hcompile : compileBytes name bytes ctx.nesting with
      | error e =>
          rw [loadFile_of_refused hbelow hopen hnew hcompile, loadNew_of_refused ctx hcompile,
            ← hbelow.progress]
          exact .error e s
      | ok c =>
          rw [loadFile_of_compiled hbelow hopen hnew hcompile, loadNew_of_compiled ctx hcompile]
          have himports := Mirrors.forM (fun i q t ht => mirrors_follow name
            (fun key bytes q t => ih (chain ++ [name]) key bytes q t) i ht)
            c.schema.imports (hbelow.enter name)
          exact himports.bind fun _ q t hafter => .ok () ((hafter.leave hopen).add c.file)

/-- **The loader comes to what a load of its root comes to**, the two looks at a file being one. -/
theorem loadOver_eq_from (known : DescriptorSet) (resolver : Resolver) (nesting : Nesting)
    (name : String) (bytes : ByteArray) (set : DescriptorSet) :
    let load := (loadRoot ⟨resolver, nesting, known⟩ name bytes).from ⟨set, []⟩
    loadOver known resolver nesting name bytes set = ⟨load.1, load.2⟩ := by
  intro load
  let ctx : Context := ⟨resolver, nesting, known⟩
  let start : State := ⟨⟨set, []⟩, [], ∅⟩
  have hbelow : Below [] ⟨set, []⟩ start := ⟨rfl, rfl, by simp [start]⟩
  have hmirrors :
      Mirrors [] ((Loader.loadFile ctx resolver.depth name bytes).run.run start) load := by
    by_cases hdone : name ∈ Progress.done known ⟨set, []⟩
    · rw [loadFile_of_done hbelow List.not_mem_nil hdone,
        show load = (.ok (), ⟨set, []⟩) from loadRoot_of_done ctx hdone]
      exact .ok () hbelow
    · rw [show load = _ from loadRoot_of_new ctx hdone]
      exact mirrors_loadFile ctx resolver.depth [] name bytes _ _ hbelow List.not_mem_nil hdone
  show (let r := (Loader.loadFile ctx resolver.depth name bytes).run.run start
    (⟨r.1, r.2.toProgress⟩ : Outcome)) = _
  generalize (Loader.loadFile ctx resolver.depth name bytes).run.run start = r at hmirrors ⊢
  generalize load = r' at hmirrors ⊢
  cases hmirrors with
  | ok u h => rw [← h.progress]
  | error e t => rfl

/-! ### The resolver

The only place where a load meets the resolver is where an import is new, and what is asked for
there is a key.  So two resolvers that give the same answer for every key, and the same bound, are
one to a load.
-/

section

variable {R R' : Resolver} (known : DescriptorSet) (nesting : Nesting)

theorem ask_congr (h : R.Agrees R') : ask ⟨R, nesting, known⟩ = ask ⟨R', nesting, known⟩ := by
  funext importer i
  simp only [ask, h.resolve]

theorem follow_congr (h : R.Agrees R') :
    follow ⟨R, nesting, known⟩ = follow ⟨R', nesting, known⟩ := by
  funext load chain importer i
  unfold follow
  rw [ask_congr known nesting h]
  rfl

theorem loadNew_congr (h : R.Agrees R') (depth : Nat) :
    loadNew ⟨R, nesting, known⟩ depth = loadNew ⟨R', nesting, known⟩ depth := by
  induction depth with
  | zero => rfl
  | succ depth ih =>
      funext chain name bytes
      rw [loadNew, loadNew, ih, follow_congr known nesting h]

end

end Loading

open Loading

/-- **Resolvers that agree on import keys are one to a load.** -/
theorem loadOver_congr {R R' : Resolver} (h : R.Agrees R') (known : DescriptorSet)
    (nesting : Nesting) (name : String) (bytes : ByteArray) (set : DescriptorSet) :
    loadOver known R nesting name bytes set = loadOver known R' nesting name bytes set := by
  have hroot :
      loadRoot ⟨R, nesting, known⟩ name bytes = loadRoot ⟨R', nesting, known⟩ name bytes := by
    simp only [loadRoot, h.depth, loadNew_congr known nesting h]
    rfl
  rw [loadOver_eq_from, loadOver_eq_from, hroot]

end Schemata
