/-
Sets of file descriptors.

A set is a list of files in the order they were added.  `push` adds without looking;
every other way of adding refuses a file whose name the set has, so a set built
without `push` names no file twice.  Looking a name up finds the first file of that
name.
-/
import Schemata.Descriptor

namespace Schemata

/-- File descriptors in the order they were added. -/
structure DescriptorSet where
  files : List Descriptor.File
deriving DecidableEq, Repr, Inhabited

namespace DescriptorSet

open Descriptor

/-- The set of no files. -/
def empty : DescriptorSet := ⟨[]⟩

/-- The names of the files, in order. -/
def names (s : DescriptorSet) : List String := s.files.map (·.name)

/-- The set has no files. -/
def isEmpty (s : DescriptorSet) : Bool := s.files.isEmpty

/-- How many files the set has. -/
def size (s : DescriptorSet) : Nat := s.files.length

/-- A file of this name is in the set. -/
def contains (s : DescriptorSet) (name : String) : Bool := s.files.any (·.name = name)

/-- The first file of this name. -/
def file? (s : DescriptorSet) (name : String) : Option File := s.files.find? (·.name = name)

/-- Adds a file, whatever its name. -/
def push (s : DescriptorSet) (f : File) : DescriptorSet := ⟨s.files ++ [f]⟩

/-- Adds a file unless its name is taken. -/
def insert (s : DescriptorSet) (f : File) : DescriptorSet :=
  if s.contains f.name then s else s.push f

/-- Adds the files of `t` whose names are not taken, in order. -/
def merge (s t : DescriptorSet) : DescriptorSet := t.files.foldl insert s

/-- The set of a list of files, the first of each name. -/
def ofFiles (files : List File) : DescriptorSet := files.foldl insert empty

@[simp] theorem names_empty : empty.names = [] := rfl

@[simp] theorem names_push (s : DescriptorSet) (f : File) :
    (s.push f).names = s.names ++ [f.name] := by
  simp [names, push]

@[simp] theorem contains_iff (s : DescriptorSet) (name : String) :
    s.contains name = true ↔ name ∈ s.names := by
  simp [contains, names]

end DescriptorSet

end Schemata
