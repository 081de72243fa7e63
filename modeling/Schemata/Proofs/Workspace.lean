/-
What a history of commands does to the sets of a workspace.

A command is for one set and leaves the others alone.  What it does to its own set is told by
two marks: whether it pushes a file, and whether it resets the set to a new one.  A command
that resets makes the set one that names no file twice, whatever the set was.  One that does
not reset only adds behind the files there; and unless it pushes, it adds no name a second
time, not even if it fails half way or reads from a set that has names twice.

So a set can name a file twice only if it was pushed to and not reset since.
-/
import Schemata.Proofs.HandedOut
import Schemata.Proofs.Loading.Closure
import Schemata.Workspace

namespace Schemata

/-! ### Loads -/

section

variable (known : DescriptorSet) (resolver : Resolver) (nesting : Nesting) (name : String)
  (bytes : ByteArray) {set : DescriptorSet}

/-- A load names no file twice, however it ends and whatever is known. -/
theorem nodup_names_loadOver (h : set.names.Nodup) :
    (loadOver known resolver nesting name bytes set).progress.set.names.Nodup :=
  Loading.loadOver_preserves (P := fun s => s.names.Nodup) known resolver nesting name bytes
    (fun {_ _ _ c} _ _ hset => DescriptorSet.nodup_insert hset c.file) h

/-- A load only adds to a set, however it ends. -/
theorem files_prefix_loadOver :
    set.files <+: (loadOver known resolver nesting name bytes set).progress.set.files :=
  Loading.loadOver_preserves (P := fun s => set.files <+: s.files) known resolver nesting name bytes
    (fun {s _ _ c} _ _ hset => hset.trans (DescriptorSet.files_prefix_insert s c.file))
    List.prefix_rfl

end

/-! ### Commands -/

namespace Command

/-- The command makes the set a new one: it empties it, collects into it, or decodes a text that
stands for a set. -/
def resets : Command → Bool
  | .clear => true
  | .collect _ => true
  | .decode text => (DescriptorSet.ofJsonText text).isOk
  | _ => false

/-- The command adds a file without looking at its name. -/
def pushes : Command → Bool
  | .push _ => true
  | _ => false

end Command

namespace Workspace

section

variable (resolver : Resolver) (w : Workspace) {set : DescriptorSet} {c : Command}

/-- **A command that does not reset a set adds behind its files.** -/
theorem files_prefix_effect (hresets : c.resets = false) :
    set.files <+: (w.effect resolver set c).1.files := by
  cases c with
  | clear => cases hresets
  | load nesting name bytes => exact files_prefix_loadOver .empty resolver nesting name bytes
  | loadOver known nesting name bytes =>
      exact files_prefix_loadOver (w.get known) resolver nesting name bytes
  | push file => exact List.prefix_append _ _
  | insert file => exact set.files_prefix_insert file
  | merge source => exact set.files_prefix_foldl_insert (w.get source).files
  | collect source => cases hresets
  | decode text =>
      rw [Command.resets] at hresets
      rw [effect]
      cases htext : DescriptorSet.ofJsonText text with
      | ok decoded =>
          rw [htext] at hresets
          cases hresets
      | error e => exact List.prefix_rfl

/-- **A command that does not push names no file twice**, if the set did not or is reset. -/
theorem nodup_names_effect (hpushes : c.pushes = false) (h : c.resets = true ∨ set.names.Nodup) :
    (w.effect resolver set c).1.names.Nodup := by
  cases c with
  | clear => exact List.nodup_nil
  | load nesting name bytes =>
      exact nodup_names_loadOver .empty resolver nesting name bytes (h.resolve_left nofun)
  | loadOver known nesting name bytes =>
      exact nodup_names_loadOver (w.get known) resolver nesting name bytes (h.resolve_left nofun)
  | push file => cases hpushes
  | insert file => exact DescriptorSet.nodup_insert (h.resolve_left nofun) file
  | merge source =>
      exact DescriptorSet.nodup_foldl_insert (h.resolve_left nofun) (w.get source).files
  | collect source =>
      exact DescriptorSet.nodup_foldl_insert (s := .empty) List.nodup_nil (w.get source).files
  | decode text =>
      rw [Command.resets] at h
      rw [effect]
      cases htext : DescriptorSet.ofJsonText text with
      | ok decoded => exact (DescriptorSet.valid_of_ofJsonText htext).names_nodup
      | error e =>
          rw [htext] at h
          exact h.resolve_left nofun

end

/-! ### Histories -/

/-- A command, the set it is for, and who answers for the imports of a load. -/
structure Step where
  resolver : Resolver
  target : String
  command : Command

namespace Step

/-- The workspace with the command carried out. -/
def run (w : Workspace) (s : Step) : Workspace := (w.run s.resolver s.target s.command).1

/-- The set of this name is made a new one. -/
def resets (s : Step) (name : String) : Bool := s.target = name && s.command.resets

/-- A file is pushed to the set of this name. -/
def pushes (s : Step) (name : String) : Bool := s.target = name && s.command.pushes

variable {s : Step} {name : String}

theorem get_run_self (w : Workspace) (s : Step) :
    (s.run w).get s.target = (w.effect s.resolver (w.get s.target) s.command).1 := by
  rw [run, Workspace.run, get_put, if_pos rfl]

/-- A command leaves the sets alone that it is not for. -/
theorem get_run_of_ne (w : Workspace) (h : s.target ≠ name) : (s.run w).get name = w.get name := by
  rw [run, Workspace.run, get_put, if_neg h]

theorem files_prefix_run (w : Workspace) (hresets : s.resets name = false) :
    (w.get name).files <+: ((s.run w).get name).files := by
  by_cases htarget : s.target = name
  · subst htarget
    rw [get_run_self]
    refine w.files_prefix_effect s.resolver ?_
    simpa [resets] using hresets
  · rw [get_run_of_ne w htarget]

theorem nodup_names_run (w : Workspace) (hpushes : s.pushes name = false)
    (h : s.resets name = true ∨ (w.get name).names.Nodup) :
    ((s.run w).get name).names.Nodup := by
  by_cases htarget : s.target = name
  · subst htarget
    rw [get_run_self]
    refine w.nodup_names_effect s.resolver ?_ ?_
    · simpa [pushes] using hpushes
    · simpa [resets] using h
  · rw [get_run_of_ne w htarget]
    refine h.resolve_left ?_
    simp [resets, htarget]

end Step

/-- The workspace with the commands carried out one after the other. -/
def runAll (w : Workspace) (steps : List Step) : Workspace := steps.foldl Step.run w

/-- Whenever a file was pushed to the set of this name, the set was reset afterwards. -/
def Unpushed (name : String) (steps : List Step) : Prop :=
  ∀ before push later, steps = before ++ push :: later → push.pushes name = true →
    ∃ reset ∈ later, reset.resets name = true

section

variable {name : String} {s : Step} {steps : List Step}

@[simp] theorem unpushed_nil : Unpushed name [] := by
  intro before push later h
  exact absurd h (by simp)

@[simp] theorem unpushed_cons :
    Unpushed name (s :: steps) ↔
      (s.pushes name = true → ∃ reset ∈ steps, reset.resets name = true) ∧ Unpushed name steps := by
  constructor
  · intro h
    exact ⟨h [] s steps rfl, fun before push later hsteps =>
      h (s :: before) push later (by rw [hsteps, List.cons_append])⟩
  · rintro ⟨hs, hsteps⟩ before push later heq
    cases before with
    | nil =>
        cases heq
        exact hs
    | cons first before =>
        cases heq
        exact hsteps before push later rfl

/-- **After any history in which a set is reset after every push it names no file twice**, if it did
not to begin with or is reset at all. -/
theorem nodup_names_runAll {w : Workspace}
    (hstart : (w.get name).names.Nodup ∨ ∃ reset ∈ steps, reset.resets name = true)
    (h : Unpushed name steps) : ((w.runAll steps).get name).names.Nodup := by
  induction steps generalizing w with
  | nil => exact hstart.resolve_right (by simp)
  | cons s steps ih =>
      obtain ⟨hs, hsteps⟩ := unpushed_cons.mp h
      refine ih (w := s.run w) ?_ hsteps
      cases hpushes : s.pushes name with
      | true => exact .inr (hs hpushes)
      | false =>
          rcases hstart with hnodup | ⟨reset, hreset, hname⟩
          · exact .inl (s.nodup_names_run w hpushes (.inr hnodup))
          rcases List.mem_cons.mp hreset with rfl | hreset
          · exact .inl (reset.nodup_names_run w hpushes (.inl hname))
          · exact .inr ⟨reset, hreset, hname⟩

end

/-- **The sets of a session keep their names apart.**  From empty sets, whatever commands are
carried out, with loads that fail and sets that have names twice among them: a set that was
reset after every push to it names no file twice, and a command that does not reset a set adds
behind the files it had. -/
theorem runAll_keeps_names_unique (steps : List Step) (name : String) :
    (Unpushed name steps → ((empty.runAll steps).get name).names.Nodup) ∧
    ∀ s : Step, s.resets name = false →
      ((empty.runAll steps).get name).files <+: ((empty.runAll (steps ++ [s])).get name).files := by
  constructor
  · exact nodup_names_runAll (.inl (by rw [get_empty]; exact List.nodup_nil))
  · intro s hs
    rw [runAll, runAll, List.foldl_append]
    exact s.files_prefix_run _ hs

/-- What resolves the imports below has `x` and, of all that `y` imports, nothing. -/
def halfway : Table := .ofList [(⟨"x"⟩, importsOf []), (⟨"y"⟩, importsOf ["gone"])]

/-- A file is pushed to `a` twice and stays there twice; `b` takes it over once; then `a` is made
a set of its own files. -/
def recollected : List Step :=
  [⟨.none, "a", .push (.empty "t" "proto3")⟩, ⟨.none, "a", .push (.empty "t" "proto2")⟩,
    ⟨.none, "b", .merge "a"⟩, ⟨.none, "a", .collect "a"⟩]

/-- The load that ends at the second import of its root. -/
def endingHalfway : Step := ⟨.ofTable halfway, "b", .load .nested "r" (importsOf ["x", "y"])⟩

/-- A set with a name twice is read from, and a load fails half way: no other set has a name twice,
nor has that one once it is collected, and the load leaves what was there in front. -/
theorem recollected_keeps_names_unique :
    let w := empty.runAll recollected
    let w' := empty.runAll (recollected ++ [endingHalfway])
    ((empty.runAll (recollected.take 2)).get "a").names = ["t", "t"] ∧
    (w.get "a").names = ["t"] ∧ (w'.get "b").names = ["t", "x"] ∧
    Unpushed "a" recollected ∧ Unpushed "b" (recollected ++ [endingHalfway]) ∧
    endingHalfway.resets "b" = false ∧
    (w.get "a").names.Nodup ∧ (w'.get "b").names.Nodup ∧
    (w.get "b").files <+: (w'.get "b").files := by
  intro w w'
  have ha : Unpushed "a" recollected := by
    simp [recollected, Step.pushes, Step.resets, Command.pushes, Command.resets]
  have hb : Unpushed "b" (recollected ++ [endingHalfway]) := by
    simp [recollected, endingHalfway, Step.pushes, Command.pushes]
  exact ⟨by decide +kernel, by decide +kernel, by decide +kernel, ha, hb, by decide +kernel,
    (runAll_keeps_names_unique recollected "a").1 ha,
    (runAll_keeps_names_unique (recollected ++ [endingHalfway]) "b").1 hb,
    (runAll_keeps_names_unique recollected "b").2 endingHalfway (by decide +kernel)⟩

end Workspace

end Schemata
