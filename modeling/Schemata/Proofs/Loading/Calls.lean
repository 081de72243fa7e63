/-
The calls a load has open.

A load is a call that makes a call for each import it follows, and nothing in a call says how
deep it stands.  Here the calls are laid out as a stack and a load goes on by single steps,
with no bound on either.  `step` is what such a load does next; where the loader has a depth to
spend, it has none.

What makes the stack short is what holds at every step: the names of the calls are those of a
chain of the import graph, which has no file twice.  Over a table each of them but the outermost
is the key of another file.  What is asked for is open or done from then on, so the same goes
for the keys asked for.  And as the loader never spends all its depth, the steps come to an end,
and to what the loader comes to.
-/
import Mathlib.Logic.Function.Iterate
import Schemata.Proofs.Loading.Asked
import Schemata.Proofs.Loading.Bound

namespace Schemata

namespace Loading

/-! ### Loading by steps -/

/-- A call that waits for an import or is about to follow one. -/
structure Call where
  name : String
  /-- The imports that are left. -/
  rest : List ImportDecl
  /-- What is added once none is left. -/
  file : Descriptor.File

/-- The names of the calls' files, the outermost first. -/
def openNames (calls : List Call) : List String := (calls.map (·.name)).reverse

/-- Where a load stands.  The calls are listed from the innermost to the outermost. -/
inductive Moment where
  /-- A file is about to be loaded. -/
  | enter (calls : List Call) (name : String) (bytes : ByteArray) (p : Progress)
  /-- The innermost call goes on. -/
  | inside (calls : List Call) (p : Progress)
  | ended (result : Except Error Unit) (p : Progress)

/-- How many calls are open. -/
def Moment.active : Moment → Nat
  | enter calls _ _ _ => calls.length + 1
  | inside calls _ => calls.length
  | ended _ _ => 0

/-- The keys asked for so far. -/
def Moment.asked : Moment → List String
  | enter _ _ _ p => p.asked
  | inside _ p => p.asked
  | ended _ p => p.asked

/-- What a load does next. -/
def step (ctx : Context) : Moment → Moment
  | .enter calls name bytes p =>
    if name ∈ openNames calls then .ended (.error (.importCycle name (openNames calls))) p
    else if p.set.contains name || ctx.known.contains name then .inside calls p
    else
      match compileBytes name bytes ctx.nesting with
      | .error e => .ended (.error e) p
      | .ok c => .inside (⟨name, c.schema.imports, c.file⟩ :: calls) p
  | .inside [] p => .ended (.ok ()) p
  | .inside (⟨_, [], file⟩ :: calls) p => .inside calls (p.add file)
  | .inside (⟨name, i :: rest, file⟩ :: calls) p =>
    if importKey i.path ∈ openNames calls ++ [name] then
      .ended (.error (.importCycle (importKey i.path) (openNames calls ++ [name]))) p
    else if p.set.contains (importKey i.path) || ctx.known.contains (importKey i.path) then
      .inside (⟨name, rest, file⟩ :: calls) p
    else
      match ctx.resolver.resolve (importKey i.path) with
      | .error fault =>
        .ended (.error (.importNotFound name i.line i.path fault.message))
          (p.ask (importKey i.path))
      | .ok bytes =>
        .enter (⟨name, rest, file⟩ :: calls) (importKey i.path) bytes (p.ask (importKey i.path))
  | .ended result p => .ended result p

@[simp] theorem openNames_cons (call : Call) (calls : List Call) :
    openNames (call :: calls) = openNames calls ++ [call.name] := by
  simp [openNames]

@[simp] theorem length_openNames (calls : List Call) : (openNames calls).length = calls.length := by
  simp [openNames]

/-! ### Single steps -/

section

variable {ctx : Context} {calls : List Call} {name : String} {bytes : ByteArray} {p : Progress}

theorem step_enter_of_done (hopen : name ∉ openNames calls) (hdone : name ∈ p.done ctx.known) :
    step ctx (.enter calls name bytes p) = .inside calls p := by
  rw [step, if_neg hopen, if_pos (isCompiled_iff.mpr hdone)]

theorem step_enter_of_new (hopen : name ∉ openNames calls) (hnew : name ∉ p.done ctx.known) :
    step ctx (.enter calls name bytes p) =
      match compileBytes name bytes ctx.nesting with
      | .error e => .ended (.error e) p
      | .ok c => .inside (⟨name, c.schema.imports, c.file⟩ :: calls) p := by
  rw [step, if_neg hopen, if_neg (mt isCompiled_iff.mp hnew)]

variable {file : Descriptor.File} {i : ImportDecl} {rest : List ImportDecl}

theorem step_import_of_open (hopen : importKey i.path ∈ openNames calls ++ [name]) :
    step ctx (.inside (⟨name, i :: rest, file⟩ :: calls) p) =
      .ended (.error (.importCycle (importKey i.path) (openNames calls ++ [name]))) p := by
  rw [step, if_pos hopen]

theorem step_import_of_done (hopen : importKey i.path ∉ openNames calls ++ [name])
    (hdone : importKey i.path ∈ p.done ctx.known) :
    step ctx (.inside (⟨name, i :: rest, file⟩ :: calls) p) =
      .inside (⟨name, rest, file⟩ :: calls) p := by
  rw [step, if_neg hopen, if_pos (isCompiled_iff.mpr hdone)]

theorem step_import_of_new (hopen : importKey i.path ∉ openNames calls ++ [name])
    (hnew : importKey i.path ∉ p.done ctx.known) :
    step ctx (.inside (⟨name, i :: rest, file⟩ :: calls) p) =
      match ctx.resolver.resolve (importKey i.path) with
      | .error fault =>
        .ended (.error (.importNotFound name i.line i.path fault.message))
          (p.ask (importKey i.path))
      | .ok bytes =>
        .enter (⟨name, rest, file⟩ :: calls) (importKey i.path) bytes
          (p.ask (importKey i.path)) := by
  rw [step, if_neg hopen, if_neg (mt isCompiled_iff.mp hnew)]

end

/-! ### What every step keeps -/

variable {g : ImportGraph} {known : DescriptorSet}

/-- Each call is that of a file that imports what it has left to follow. -/
def Follows (g : ImportGraph) (calls : List Call) : Prop :=
  ∀ call ∈ calls, call.file.name = call.name ∧ ∀ i ∈ call.rest, g.Edge call.name (importKey i.path)

/-- What was asked for are different keys. -/
structure AreKeys (asked : List String) : Prop where
  nodup : asked.Nodup
  keys : ∀ key ∈ asked, ∃ path, importKey path = key

/-- Each key that was asked for is that of a file that is done or open. -/
structure Accounted (known : DescriptorSet) (p : Progress) (opened : List String) : Prop
    extends AreKeys p.asked where
  kept : ∀ key ∈ p.asked, key ∈ p.done known ∨ key ∈ opened

/-- What holds of a load that is under way. -/
inductive UnderWay (g : ImportGraph) (known : DescriptorSet) : Moment → Prop
  | enter {calls : List Call} {name : String} {bytes : ByteArray} {p : Progress}
      (hfollows : Follows g calls) (hchain : g.Chain (openNames calls ++ [name]))
      (hbytes : g.content? name = some bytes)
      (hasked : Accounted known p (openNames calls ++ [name])) :
      UnderWay g known (.enter calls name bytes p)
  | inside {calls : List Call} {p : Progress} (hfollows : Follows g calls)
      (hchain : calls ≠ [] → g.Chain (openNames calls))
      (hasked : Accounted known p (openNames calls)) : UnderWay g known (.inside calls p)
  | ended {r : Except Error Unit} {p : Progress} (hasked : AreKeys p.asked) :
      UnderWay g known (.ended r p)

namespace Accounted

variable {p : Progress} {opened : List String} {name : String}

/-- A new key may be asked for, and the file is open then. -/
theorem ask {path : String} (h : Accounted known p opened) (hopen : importKey path ∉ opened)
    (hnew : importKey path ∉ p.done known) :
    Accounted known (p.ask (importKey path)) (opened ++ [importKey path]) where
  nodup := by
    refine List.nodup_append.mpr ⟨h.nodup, by simp, ?_⟩
    intro x hx y hy heq
    obtain rfl := List.mem_singleton.mp hy
    exact (h.kept x hx).elim (heq ▸ hnew) (heq ▸ hopen)
  keys key hkey := by
    rcases List.mem_append.mp hkey with hkey | hkey
    · exact h.keys key hkey
    · exact ⟨path, (List.mem_singleton.mp hkey).symm⟩
  kept key hkey := by
    rcases List.mem_append.mp hkey with hkey | hkey
    · exact (h.kept key hkey).imp_right (List.mem_append_left _)
    · exact .inr (List.mem_append_right _ hkey)

/-- A file that is done need not be open. -/
theorem close (h : Accounted known p (opened ++ [name])) (hdone : name ∈ p.done known) :
    Accounted known p opened where
  nodup := h.nodup
  keys := h.keys
  kept key hkey := by
    rcases h.kept key hkey with hkey | hkey
    · exact .inl hkey
    · rcases List.mem_append.mp hkey with hkey | hkey
      · exact .inr hkey
      · exact .inl (List.mem_singleton.mp hkey ▸ hdone)

/-- A file that is added is done. -/
theorem add {file : Descriptor.File} (h : Accounted known p opened) :
    Accounted known (p.add file) opened where
  nodup := h.nodup
  keys := h.keys
  kept key hkey := (h.kept key hkey).imp_left fun hdone => mem_done_add.mpr (.inl hdone)

end Accounted

namespace Follows

variable {calls : List Call} {name : String} {i : ImportDecl} {rest : List ImportDecl}
  {file : Descriptor.File}

theorem tail {call : Call} (h : Follows g (call :: calls)) : Follows g calls :=
  fun c hc => h c (List.mem_cons_of_mem _ hc)

/-- An import is left behind. -/
theorem next (h : Follows g (⟨name, i :: rest, file⟩ :: calls)) :
    Follows g (⟨name, rest, file⟩ :: calls) := by
  obtain ⟨hname, hrest⟩ := h _ List.mem_cons_self
  intro call hcall
  rcases List.mem_cons.mp hcall with rfl | hcall
  · exact ⟨hname, fun j hj => hrest j (List.mem_cons_of_mem _ hj)⟩
  · exact h.tail call hcall

/-- A file that compiles is opened with all its imports left. -/
theorem enter {c : Compiled} (h : Follows g calls) (hc : g.compiled? name = some c) :
    Follows g (⟨name, c.schema.imports, c.file⟩ :: calls) := by
  intro call hcall
  rcases List.mem_cons.mp hcall with rfl | hcall
  · refine ⟨ImportGraph.name_of_compiled? hc, fun i hi => ?_⟩
    rw [ImportGraph.Edge, ImportGraph.imports_of_compiled? hc]
    exact List.mem_map_of_mem hi
  · exact h call hcall

end Follows

namespace UnderWay

variable {calls : List Call} {name : String} {bytes : ByteArray} {p : Progress}

/-- Entering a file keeps it. -/
theorem step_enter (hfollows : Follows g calls) (hchain : g.Chain (openNames calls ++ [name]))
    (hbytes : g.content? name = some bytes)
    (hasked : Accounted known p (openNames calls ++ [name])) :
    UnderWay g known (step (context g known) (.enter calls name bytes p)) := by
  have hopen : name ∉ openNames calls := hchain.notMem
  by_cases hdone : name ∈ p.done known
  · rw [step_enter_of_done hopen hdone]
    refine .inside hfollows (fun hne => hchain.init ?_) (hasked.close hdone)
    simpa [openNames] using hne
  rw [step_enter_of_new hopen hdone]
  cases hcompile : compileBytes name bytes (context g known).nesting with
  | error e => exact .ended hasked.toAreKeys
  | ok c =>
      have hc : g.compiled? name = some c :=
        ImportGraph.compiled?_eq_some.mpr ⟨bytes, hbytes, hcompile⟩
      refine .inside (hfollows.enter hc) (fun _ => ?_) ?_
      · rw [openNames_cons]
        exact hchain
      · rw [openNames_cons]
        exact hasked

/-- Following an import keeps it. -/
theorem step_import {i : ImportDecl} {rest : List ImportDecl} {file : Descriptor.File}
    (hfollows : Follows g (⟨name, i :: rest, file⟩ :: calls))
    (hchain : g.Chain (openNames calls ++ [name]))
    (hasked : Accounted known p (openNames calls ++ [name])) :
    UnderWay g known
      (step (context g known) (.inside (⟨name, i :: rest, file⟩ :: calls) p)) := by
  by_cases hopen : importKey i.path ∈ openNames calls ++ [name]
  · rw [step_import_of_open hopen]
    exact .ended hasked.toAreKeys
  by_cases hdone : importKey i.path ∈ p.done known
  · rw [step_import_of_done hopen hdone]
    exact .inside hfollows.next (fun _ => by rwa [openNames_cons]) (by rwa [openNames_cons])
  rw [step_import_of_new hopen hdone]
  have hafter := hasked.ask hopen hdone
  cases hresolve : (context g known).resolver.resolve (importKey i.path) with
  | error fault => exact .ended hafter.toAreKeys
  | ok bytes =>
      have hbytes : g.content? (importKey i.path) = some bytes := by
        rw [hchain.content?_of_notMem hopen, show g.resolver.resolve _ = _ from hresolve]
        rfl
      have hedge := (hfollows _ List.mem_cons_self).2 i List.mem_cons_self
      have hbelow := hchain.snoc List.getLast?_concat hedge hopen hbytes
      refine .enter hfollows.next ?_ hbytes ?_
      · rwa [openNames_cons]
      · rwa [openNames_cons]

/-- **Every step keeps it.** -/
theorem step {m : Moment} (h : UnderWay g known m) :
    UnderWay g known (Loading.step (context g known) m) := by
  cases h with
  | enter hfollows hchain hbytes hasked => exact step_enter hfollows hchain hbytes hasked
  | ended hasked => exact .ended hasked
  | @inside calls p hfollows hchain hasked =>
      rcases calls with _ | ⟨⟨name, _ | ⟨i, rest⟩, file⟩, calls⟩
      · exact .ended hasked.toAreKeys
      · have hname : file.name = name := (hfollows _ List.mem_cons_self).1
        rw [openNames_cons] at hasked hchain
        refine .inside hfollows.tail (fun hne => (hchain (by simp)).init ?_) ?_
        · simpa [openNames] using hne
        · exact hasked.add.close (mem_done_add.mpr (.inr hname.symm))
      · rw [openNames_cons] at hasked hchain
        exact step_import hfollows (hchain (by simp)) hasked

/-- **It holds as long as a load goes on.** -/
theorem iterate {m : Moment} (h : UnderWay g known m) (k : Nat) :
    UnderWay g known ((Loading.step (context g known))^[k] m) := by
  induction k with
  | zero => exact h
  | succ k ih =>
      rw [Function.iterate_succ_apply']
      exact ih.step

theorem start (g : ImportGraph) (known set : DescriptorSet) :
    UnderWay g known (.enter [] g.root g.bytes ⟨set, []⟩) := by
  have hasked : Accounted known ⟨set, []⟩ [g.root] := ⟨⟨List.nodup_nil, by simp⟩, by simp⟩
  exact .enter (by simp [Follows]) g.chain_root g.content?_root hasked

/-! ### Over a table -/

variable {m : Moment} {t : Table}

/-- No more calls are open than the table has files, but for the outermost one. -/
theorem active_le (h : UnderWay g known m) (hg : g.resolver = .ofTable t) :
    m.active ≤ t.size + 1 := by
  cases h with
  | enter hfollows hchain hbytes hasked =>
      have hle := hchain.length_le_ofTable hg
      rwa [List.length_append, length_openNames] at hle
  | @inside calls p hfollows hchain hasked =>
      by_cases hne : calls = []
      · rw [hne]
        exact Nat.zero_le _
      · have hle := (hchain hne).length_le_ofTable hg
        rwa [length_openNames] at hle
  | ended => exact Nat.zero_le _

theorem areKeys (h : UnderWay g known m) : AreKeys m.asked := by
  cases h with
  | enter _ _ _ hasked => exact hasked.toAreKeys
  | inside _ _ hasked => exact hasked.toAreKeys
  | ended hasked => exact hasked

/-- No more files were found than the table has. -/
theorem length_found_le (h : UnderWay g known m) (t : Table) :
    (m.asked.filter fun key => ((Resolver.ofTable t).resolve key).isOk).length ≤ t.size := by
  obtain ⟨hnodup, hkeys⟩ := h.areKeys
  rw [← t.length_fileKeys]
  refine (hnodup.filter _).length_le_of_subset fun key hkey => ?_
  obtain ⟨hmem, hfound⟩ := List.mem_filter.mp hkey
  obtain ⟨path, rfl⟩ := hkeys key hmem
  cases hresolve : (Resolver.ofTable t).resolve (importKey path) with
  | error fault => simp [hresolve, Except.isOk, Except.toBool] at hfound
  | ok bytes => exact Resolver.importKey_mem_fileKeys hresolve

end UnderWay

/-! ### Steps and the loader -/

/-- By steps the one comes to the other. -/
def Reaches (ctx : Context) (m m' : Moment) : Prop := ∃ k, (step ctx)^[k] m = m'

namespace Reaches

variable {ctx : Context} {m m' m'' : Moment}

theorem refl (m : Moment) : Reaches ctx m m := ⟨0, rfl⟩

theorem head (hstep : Loading.step ctx m = m') (h : Reaches ctx m' m'') : Reaches ctx m m'' := by
  obtain ⟨k, hk⟩ := h
  exact ⟨k + 1, by rw [Function.iterate_succ_apply, hstep, hk]⟩

theorem single (hstep : Loading.step ctx m = m') : Reaches ctx m m' := head hstep (refl m')

theorem trans (h : Reaches ctx m m') (h' : Reaches ctx m' m'') : Reaches ctx m m'' := by
  obtain ⟨k, rfl⟩ := h
  obtain ⟨l, rfl⟩ := h'
  exact ⟨l + k, Function.iterate_add_apply _ l k m⟩

end Reaches

/-- Where a load stands when something below these calls is over. -/
def Moment.after (calls : List Call) : Except Error Unit → Progress → Moment
  | .ok (), p => .inside calls p
  | .error e, p => .ended (.error e) p

/-- By steps a task that stands below the files of `chain` comes to its result. -/
def Task.Done (g : ImportGraph) (known : DescriptorSet) (chain : List String) (p : Progress)
    (r : Except Error Unit) (q : Progress) : Task → Prop
  | .file name => ∀ calls bytes, openNames calls = chain → g.content? name = some bytes →
      Reaches (context g known) (.enter calls name bytes p) (.after calls r q)
  | .imports importer rest => ∀ calls file, openNames calls ++ [importer] = chain →
      Reaches (context g known) (.inside (⟨importer, rest, file⟩ :: calls) p)
        (.after (⟨importer, [], file⟩ :: calls) r q)

theorem step_enter_of_compiled {calls : List Call} {name : String} {bytes : ByteArray}
    {p : Progress} {c : Compiled} (hready : Ready g known (openNames calls) name p)
    (hc : g.compiled? name = some c) (hbytes : g.content? name = some bytes) :
    step (context g known) (.enter calls name bytes p) =
      .inside (⟨name, c.schema.imports, c.file⟩ :: calls) p := by
  have hcompile : compileBytes name bytes (context g known).nesting = .ok c :=
    ImportGraph.compileBytes_of_compiled? hc hbytes
  rw [step_enter_of_new hready.notMem hready.fresh, hcompile]

theorem step_import_of_ready {calls : List Call} {importer : String} {i : ImportDecl}
    {is : List ImportDecl} {file : Descriptor.File} {p : Progress}
    (hready : Ready g known (openNames calls ++ [importer]) (importKey i.path)
      (p.ask (importKey i.path))) :
    ∃ bytes, g.content? (importKey i.path) = some bytes ∧
      step (context g known) (.inside (⟨importer, i :: is, file⟩ :: calls) p) =
        .enter (⟨importer, is, file⟩ :: calls) (importKey i.path) bytes
          (p.ask (importKey i.path)) := by
  obtain ⟨bytes, hbytes, hresolve⟩ := hready.resolved (by simp)
  have hfind : (context g known).resolver.resolve (importKey i.path) = .ok bytes := hresolve
  exact ⟨bytes, hbytes, by rw [step_import_of_new hready.notMem hready.fresh, hfind]⟩

/-- **What the loader comes to, a load comes to by steps**, unless its depth is spent. -/
theorem Runs.done (hroom : ∀ names, g.Chain names → names.length ≤ g.resolver.depth)
    {chain : List String} {task : Task} {p : Progress} {r : Except Error Unit} {q : Progress}
    (h : Runs g known chain task p r q) : task.Done g known chain p r q := by
  induction h with
  | tooDeep hready hdepth =>
      have hle := hroom _ hready.opens
      rw [List.length_append, List.length_singleton] at hle
      omega
  | @refused chain name p bytes e hready _ hbytes he =>
      rintro calls bytes' rfl hbytes'
      obtain rfl : bytes = bytes' := Option.some.inj (hbytes.symm.trans hbytes')
      have hcompile : compileBytes name bytes (context g known).nesting = .error e := he
      exact .single (by rw [step_enter_of_new hready.notMem hready.fresh, hcompile]; rfl)
  | stopped hready _ hc _ ih =>
      rintro calls bytes rfl hbytes
      exact .head (step_enter_of_compiled hready hc hbytes) (ih calls _ rfl)
  | finished hready _ hc _ ih =>
      rintro calls bytes rfl hbytes
      exact .head (step_enter_of_compiled hready hc hbytes)
        ((ih calls _ rfl).trans (.single rfl))
  | nil => exact fun _ _ _ => .refl _
  | cycle _ hopen =>
      rintro calls file rfl
      exact .single (step_import_of_open hopen)
  | skip hopen hdone _ ih =>
      rintro calls file rfl
      exact .head (step_import_of_done hopen hdone) (ih calls file rfl)
  | @missing chain importer i is p fault _ hopen hnew hfault =>
      rintro calls file rfl
      have hfind : (context g known).resolver.resolve (importKey i.path) = .error fault := hfault
      exact .single (by rw [step_import_of_new hopen hnew, hfind]; rfl)
  | failed hload ih =>
      rintro calls file rfl
      obtain ⟨bytes, hbytes, hstep⟩ := step_import_of_ready hload.ready
      exact .head hstep (ih _ bytes (openNames_cons _ _) hbytes)
  | loaded _ hload _ ihLoad ihLater =>
      rintro calls file rfl
      obtain ⟨bytes, hbytes, hstep⟩ := step_import_of_ready hload.ready
      exact .head hstep
        ((ihLoad _ bytes (openNames_cons _ _) hbytes).trans (ihLater calls file rfl))

/-- By steps a load comes to an end, and to what the loader comes to. -/
theorem reaches_loadOver (known set : DescriptorSet)
    (hroom : ∀ names, g.Chain names → names.length ≤ g.resolver.depth) :
    let load := loadOver known g.resolver g.nesting g.root g.bytes set
    Reaches (context g known) (.enter [] g.root g.bytes ⟨set, []⟩)
      (.ended load.result load.progress) := by
  intro load
  by_cases hdone : g.root ∈ Progress.done known ⟨set, []⟩
  · have hload : load = ⟨.ok (), ⟨set, []⟩⟩ := by
      show loadOver known g.resolver g.nesting g.root g.bytes set = _
      rw [loadOver_eq, loadRoot_of_done (context g known) hdone]
    rw [hload]
    exact .head (step_enter_of_done (by simp [openNames]) hdone) (.single rfl)
  · have hruns : Runs g known [] (.file g.root) ⟨set, []⟩ load.result load.progress :=
      runs_loadOver hdone
    have hreaches := hruns.done hroom [] g.bytes rfl g.content?_root
    cases hresult : load.result with
    | ok u =>
        rw [hresult] at hreaches
        exact hreaches.trans (.single rfl)
    | error e =>
        rw [hresult] at hreaches
        exact hreaches

end Loading

open Loading

/-- **A load over a table ends within a known depth.**  From any set and beside any known files,
whatever the files import: on the way there are never more calls open than the table has files
and one for the root, the way has an end, which is what the loader comes to, and of the keys
asked for until then no more are found than the table has files. -/
theorem loadOver_within_files (t : Table) (known set : DescriptorSet) (nesting : Nesting)
    (name : String) (bytes : ByteArray) :
    let R := Resolver.ofTable t
    let start := Moment.enter [] name bytes ⟨set, []⟩
    let load := loadOver known R nesting name bytes set
    (∀ k, ((step ⟨R, nesting, known⟩)^[k] start).active ≤ t.size + 1) ∧
    (∃ k, (step ⟨R, nesting, known⟩)^[k] start = .ended load.result load.progress) ∧
    (load.progress.asked.filter fun key => (R.resolve key).isOk).length ≤ t.size := by
  intro R start load
  let g : ImportGraph := ⟨name, bytes, R, nesting⟩
  have hway : ∀ k, UnderWay g known ((step ⟨R, nesting, known⟩)^[k] start) :=
    (UnderWay.start g known set).iterate
  obtain ⟨k, hend⟩ : ∃ k, (step ⟨R, nesting, known⟩)^[k] start = .ended load.result load.progress :=
    reaches_loadOver (g := g) known set fun names hnames => hnames.length_le_ofTable rfl
  refine ⟨fun k => (hway k).active_le rfl, ⟨k, hend⟩, ?_⟩
  have hlast := hway k
  rw [hend] at hlast
  exact hlast.length_found_le t

/-- All the calls there is room for, where the files of the table import each other. -/
example :
    let t := Table.ofList [(⟨"b"⟩, importsOf ["x/../c"]), (⟨"c"⟩, importsOf ["./b"])]
    let start := Moment.enter [] "a" (importsOf ["b"]) ⟨.empty, []⟩
    ((step ⟨.ofTable t, .nested, .empty⟩)^[5] start).active = t.size + 1 := by
  decide +kernel

end Schemata
