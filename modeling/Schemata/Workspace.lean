/-
Named descriptor sets, changed by commands.

A workspace maps names to sets; a name that was never used names the empty set.  Every
command changes one set, the others it may mention are read as they were before it.
-/
import Schemata.Loading
import Schemata.Descriptor.Encode
import Schemata.Descriptor.Decode
import Std.Data.TreeMap.Lemmas

namespace Schemata

/-- Descriptor sets by name. -/
structure Workspace where
  sets : Std.TreeMap String DescriptorSet

/-- What can be done to a set. -/
inductive Command where
  /-- Empties it. -/
  | clear
  /-- Loads a file and its imports into it. -/
  | load (nesting : Nesting) (name : String) (bytes : ByteArray)
  /-- Loads a file and those of its imports into it that the set `known` has not. -/
  | loadOver (known : String) (nesting : Nesting) (name : String) (bytes : ByteArray)
  /-- Adds a file, whatever its name. -/
  | push (file : Descriptor.File)
  /-- Adds a file unless its name is taken. -/
  | insert (file : Descriptor.File)
  /-- Adds the files of another set. -/
  | merge (source : String)
  /-- Makes it the files of another set, the first of each name. -/
  | collect (source : String)
  /-- Makes it what a JSON text stands for, if it stands for a set. -/
  | decode (text : String)

/-- What a command answers. -/
inductive Reply where
  | done
  /-- A file was added, or its name was taken. -/
  | added (isNew : Bool)
  /-- A load ended, having asked for these keys. -/
  | loaded (result : Except Error Unit) (asked : List String)
  | undecodable (e : DecodeError)

namespace Workspace

/-- The workspace in which every set is empty. -/
def empty : Workspace := ⟨{}⟩

instance : Inhabited Workspace := ⟨empty⟩

/-- The set of a name. -/
def get (w : Workspace) (name : String) : DescriptorSet := w.sets.getD name .empty

/-- Gives a name a set. -/
def put (w : Workspace) (name : String) (set : DescriptorSet) : Workspace :=
  ⟨w.sets.insert name set⟩

@[simp] theorem get_empty (name : String) : empty.get name = .empty := by
  simp [get, empty]

theorem get_put (w : Workspace) (name other : String) (set : DescriptorSet) :
    (w.put name set).get other = if name = other then set else w.get other := by
  simp [get, put, Std.TreeMap.getD_insert]

/-- What a command makes of the set it is for, and its reply. -/
def effect (resolver : Resolver) (w : Workspace) (set : DescriptorSet) :
    Command → DescriptorSet × Reply
  | .clear => (.empty, .done)
  | .load nesting name bytes =>
    let outcome := loadInto resolver nesting name bytes set
    (outcome.progress.set, .loaded outcome.result outcome.progress.asked)
  | .loadOver known nesting name bytes =>
    let outcome := Schemata.loadOver (w.get known) resolver nesting name bytes set
    (outcome.progress.set, .loaded outcome.result outcome.progress.asked)
  | .push file => (set.push file, .done)
  | .insert file => (set.insert file, .added (!set.contains file.name))
  | .merge source => (set.merge (w.get source), .done)
  | .collect source => (.ofFiles (w.get source).files, .done)
  | .decode text =>
    match DescriptorSet.ofJsonText text with
    | .ok decoded => (decoded, .done)
    | .error e => (set, .undecodable e)

/-- Carries a command out on the set `target`. -/
def run (resolver : Resolver) (w : Workspace) (target : String) (c : Command) :
    Workspace × Reply :=
  let (set, reply) := w.effect resolver (w.get target) c
  (w.put target set, reply)

end Workspace

end Schemata
