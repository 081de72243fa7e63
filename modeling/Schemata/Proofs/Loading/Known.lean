/-
Loading into a set and loading beside it.

Files that count as compiled can be in the set a load adds to, or in a known set beside
it.  The two loads take the same steps: `Agree` relates a load of the first kind to one of
the second, from progresses that differ by the known files and to such progresses again,
whether the load succeeds or not.  The one place that needs care is where a file is added,
since the first load compares its name with the known files and the second does not; but a
file is only opened when no known file has its name.
-/
import Schemata.Proofs.Loading.Closure

namespace Schemata

namespace Loading

variable {α β : Type} {known : DescriptorSet} {p p' : Progress}

/-- The progress `p` is what `p'` is beside the known files. -/
structure Beside (known : DescriptorSet) (p p' : Progress) : Prop where
  files : p.set.files = known.files ++ p'.set.files
  asked : p.asked = p'.asked

/-- From progresses that differ by the known files two loads end with the same result and
with such progresses. -/
def Agree (known : DescriptorSet) (a b : Load α) : Prop :=
  ∀ p p', Beside known p p' → (a.from p).1 = (b.from p').1 ∧ Beside known (a.from p).2 (b.from p').2

namespace Beside

/-- The same files count as compiled. -/
theorem done (h : Beside known p p') : p.done .empty = p'.done known := by
  simp [Progress.done, DescriptorSet.names, DescriptorSet.empty, h.files]

theorem ask (h : Beside known p p') (key : String) : Beside known (p.ask key) (p'.ask key) :=
  ⟨h.files, congrArg (· ++ [key]) h.asked⟩

/-- Both sets take a file in if no known file has its name. -/
theorem add {f : Descriptor.File} (hnew : f.name ∉ known.names) (h : Beside known p p') :
    Beside known (p.add f) (p'.add f) := by
  refine ⟨?_, h.asked⟩
  have hnames : p.set.names = known.names ++ p'.set.names := by
    rw [DescriptorSet.names, h.files, List.map_append]
    rfl
  by_cases hmem : f.name ∈ p'.set.names
  · have hmem' : f.name ∈ p.set.names := hnames ▸ List.mem_append_right _ hmem
    rw [Progress.add, Progress.add, DescriptorSet.insert_of_mem hmem,
      DescriptorSet.insert_of_mem hmem']
    exact h.files
  · have hmem' : f.name ∉ p.set.names := by
      rw [hnames]
      exact fun hm => (List.mem_append.mp hm).elim hnew hmem
    rw [files_add hmem, files_add hmem', h.files, List.append_assoc]

end Beside

/-! ### Loads that agree -/

theorem Agree.bind {a b : Load α} {f g : α → Load β} (h : Agree known a b)
    (hf : ∀ x, Agree known (f x) (g x)) : Agree known (a >>= f) (b >>= g) := by
  intro p p' hp
  have hab := h p p' hp
  rcases ha : a.from p with ⟨r, q⟩
  rcases hb : b.from p' with ⟨r', q'⟩
  rw [ha, hb] at hab
  obtain ⟨rfl, hq⟩ := hab
  cases r with
  | error e =>
      rw [from_bind_error ha, from_bind_error hb]
      exact ⟨rfl, hq⟩
  | ok x =>
      rw [from_bind_ok ha, from_bind_ok hb]
      exact hf x q q' hq

theorem Agree.forM {f g : ImportDecl → Load Unit} (h : ∀ i, Agree known (f i) (g i))
    (is : List ImportDecl) : Agree known (is.forM f) (is.forM g) := by
  induction is with
  | nil => exact fun p p' hp => ⟨rfl, hp⟩
  | cons i is ih =>
      rw [forM_cons, forM_cons]
      exact (h i).bind fun _ => ih

variable (resolver : Resolver) (nesting : Nesting)

/-- Following an import agrees if loading what it opens does. -/
theorem agree_follow {load load' : String → ByteArray → Load Unit} (chain : List String)
    (importer : String) (i : ImportDecl)
    (hload : ∀ key bytes, key ∉ known.names → Agree known (load key bytes) (load' key bytes)) :
    Agree known (follow ⟨resolver, nesting, .empty⟩ load chain importer i)
      (follow ⟨resolver, nesting, known⟩ load' chain importer i) := by
  intro p p' hp
  by_cases hopen : importKey i.path ∈ chain
  · rw [follow_of_open hopen, follow_of_open hopen]
    exact ⟨rfl, hp⟩
  by_cases hdone : importKey i.path ∈ p'.done known
  · rw [follow_of_done hopen (hp.done ▸ hdone), follow_of_done hopen hdone]
    exact ⟨rfl, hp⟩
  have hdone' : importKey i.path ∉ p.done .empty := hp.done ▸ hdone
  cases hresolve : resolver.resolve (importKey i.path) with
  | error fault =>
      rw [follow_of_missing hopen hdone' hresolve, follow_of_missing hopen hdone hresolve]
      exact ⟨rfl, hp.ask _⟩
  | ok bytes =>
      rw [follow_of_resolved hopen hdone' hresolve, follow_of_resolved hopen hdone hresolve]
      have hnew : importKey i.path ∉ known.names := fun hm => hdone (List.mem_append_left _ hm)
      exact hload _ bytes hnew _ _ (hp.ask _)

/-- Loading a file that is not known agrees. -/
theorem agree_loadNew (depth : Nat) :
    ∀ (chain : List String) (name : String) (bytes : ByteArray), name ∉ known.names →
      Agree known (loadNew ⟨resolver, nesting, .empty⟩ depth chain name bytes)
        (loadNew ⟨resolver, nesting, known⟩ depth chain name bytes) := by
  induction depth with
  | zero => exact fun _ _ _ _ p p' hp => ⟨rfl, hp⟩
  | succ depth ih =>
      intro chain name bytes hnew p p' hp
      cases hcompile : compileBytes name bytes nesting with
      | error e =>
          rw [loadNew_of_refused ⟨resolver, nesting, _⟩ hcompile,
            loadNew_of_refused ⟨resolver, nesting, _⟩ hcompile]
          exact ⟨rfl, hp⟩
      | ok c =>
          rw [loadNew_of_compiled ⟨resolver, nesting, _⟩ hcompile,
            loadNew_of_compiled ⟨resolver, nesting, _⟩ hcompile]
          have himports := Agree.forM
            (fun i => agree_follow resolver nesting (chain ++ [name]) name i (ih (chain ++ [name])))
            c.schema.imports
          have hfinish : Agree known (finish c.file) (finish c.file) := by
            intro q q' hq
            exact ⟨rfl, hq.add ((name_of_compileBytes hcompile).symm ▸ hnew)⟩
          exact himports.bind (fun _ => hfinish) p p' hp

/-- **Loading into the known files agrees with loading beside them.** -/
theorem agree_loadRoot (name : String) (bytes : ByteArray) :
    Agree known (loadRoot ⟨resolver, nesting, .empty⟩ name bytes)
      (loadRoot ⟨resolver, nesting, known⟩ name bytes) := by
  intro p p' hp
  by_cases hdone : name ∈ p'.done known
  · rw [loadRoot_of_done _ (hp.done ▸ hdone), loadRoot_of_done ⟨resolver, nesting, known⟩ hdone]
    exact ⟨rfl, hp⟩
  · have hnew : name ∉ known.names := fun hm => hdone (List.mem_append_left _ hm)
    rw [loadRoot_of_new _ (hp.done ▸ hdone), loadRoot_of_new ⟨resolver, nesting, known⟩ hdone]
    exact agree_loadNew resolver nesting resolver.depth [] name bytes hnew p p' hp

/-- A load into the known files ends like the one beside them. -/
theorem loadInto_beside (name : String) (bytes : ByteArray) (known : DescriptorSet) :
    (loadInto resolver nesting name bytes known).result =
        (loadOver known resolver nesting name bytes .empty).result ∧
      Beside known (loadInto resolver nesting name bytes known).progress
        (loadOver known resolver nesting name bytes .empty).progress := by
  let g : ImportGraph := ⟨name, bytes, resolver, nesting⟩
  have hstart : Beside known ⟨known, []⟩ ⟨.empty, []⟩ := ⟨(List.append_nil known.files).symm, rfl⟩
  rw [loadInto, loadOver_eq .empty g known, loadOver_eq known g .empty]
  exact agree_loadRoot resolver nesting name bytes _ _ hstart

/-! ### Merging

What is added beside the known files has new names only, so a merge takes in all of it.  An
error changes nothing about that: each file added is one the run had opened as new.
-/

/-- The set names no file twice, and none that is known. -/
structure Apart (known set : DescriptorSet) : Prop where
  nodup : set.names.Nodup
  fresh : ∀ name ∈ set.names, name ∉ known.names

/-- A file that is not known keeps the set apart. -/
theorem Apart.insert {set : DescriptorSet} {f : Descriptor.File} (hnew : f.name ∉ known.names)
    (h : Apart known set) : Apart known (set.insert f) where
  nodup := DescriptorSet.nodup_insert h.nodup f
  fresh := by
    intro name hname
    obtain ⟨g, hg, rfl⟩ := List.mem_map.mp hname
    rcases DescriptorSet.mem_of_mem_insert hg with hg | rfl
    · exact h.fresh _ (List.mem_map_of_mem hg)
    · exact hnew

/-- A load beside the known files ends apart from them. -/
theorem loadOver_apart (name : String) (bytes : ByteArray) (known : DescriptorSet) :
    Apart known (loadOver known resolver nesting name bytes .empty).progress.set :=
  loadOver_preserves known resolver nesting name bytes (fun _ hnew => .insert hnew)
    ⟨List.nodup_nil, by simp⟩

/-- What a load beside the known files adds, merged into them, is what a load into them
comes to. -/
theorem loadInto_eq_merge (name : String) (bytes : ByteArray) (known : DescriptorSet) :
    (loadInto resolver nesting name bytes known).progress.set =
      known.merge (loadOver known resolver nesting name bytes .empty).progress.set := by
  obtain ⟨-, hbeside⟩ := loadInto_beside resolver nesting name bytes known
  have hapart := loadOver_apart resolver nesting name bytes known
  rw [DescriptorSet.merge_of_disjoint hapart.nodup hapart.fresh, ← hbeside.files]

end Loading

open Loading

/-- **Loading over known files is loading into them.**  Whatever the files known, and whether
the load succeeds or not, the two loads end with the same result and ask for the same keys in
the same order; the one adds behind the known files what the other adds to no files at all, so
that merging the latter into the known files gives the former. -/
theorem loadInto_matches_loadOver (resolver : Resolver) (nesting : Nesting) (name : String)
    (bytes : ByteArray) (known : DescriptorSet) :
    (loadInto resolver nesting name bytes known).result =
        (loadOver known resolver nesting name bytes .empty).result ∧
      (loadInto resolver nesting name bytes known).progress.asked =
        (loadOver known resolver nesting name bytes .empty).progress.asked ∧
      (loadInto resolver nesting name bytes known).progress.set.files =
        known.files ++ (loadOver known resolver nesting name bytes .empty).progress.set.files ∧
      known.merge (loadOver known resolver nesting name bytes .empty).progress.set =
        (loadInto resolver nesting name bytes known).progress.set := by
  obtain ⟨hresult, hbeside⟩ := loadInto_beside resolver nesting name bytes known
  exact ⟨hresult, hbeside.asked, hbeside.files,
    (loadInto_eq_merge resolver nesting name bytes known).symm⟩

end Schemata
