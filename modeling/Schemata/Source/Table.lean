/-
Files in memory.

A table maps paths in normal form to contents, so two spellings of one path are one
entry and a later file replaces an earlier one.  They are kept in the order of their
components, which is the order they are listed in.  A directory is no entry of its
own: it is there as long as a file lies below it and no file has its name.
-/
import Schemata.Source
import Std.Data.TreeMap.Basic

namespace Schemata

/-- Files by the components of their paths in normal form. -/
structure Table where
  files : Std.TreeMap (List Component) ByteArray

namespace Table

/-- The table of no files. -/
def empty : Table := ⟨{}⟩

instance : Inhabited Table := ⟨empty⟩

/-- Adds a file, or replaces the one with the same normal form. -/
def insert (t : Table) (path : Path) (content : ByteArray) : Table :=
  ⟨t.files.insert path.normalComponents content⟩

/-- The table of a list of files, later ones replacing earlier ones. -/
def ofList (files : List (Path × ByteArray)) : Table :=
  files.foldl (fun t (path, content) => t.insert path content) empty

/-- How many files the table has. -/
def size (t : Table) : Nat := t.files.size

/-- The components of the files' paths, in ascending order. -/
def keys (t : Table) : List (List Component) := t.files.keys

/-- The content of the file at a path. -/
def content? (t : Table) (path : Path) : Option ByteArray := t.files[path.normalComponents]?

/-- The key lies below the directory, and is not the directory itself. -/
def isBelow (dir key : List Component) : Bool := dir.isPrefixOf key && key ≠ dir

/-- The content of a file. -/
def read (t : Table) (path : Path) : Except AccessFault ByteArray :=
  match t.content? path with
  | some content => .ok content
  | none => .error (.notInTable path.normalize)

/-- The files below a directory. -/
def list (t : Table) (dir : Path) : List Path :=
  (t.keys.filter (isBelow dir.normalComponents)).map Path.ofComponents

/-- Files lie below the path and none is at it. -/
def isDir (t : Table) (path : Path) : Bool :=
  (t.content? path).isNone && t.keys.any (isBelow path.normalComponents)

/-- A file or a directory is at the path. -/
def present (t : Table) (path : Path) : Bool :=
  (t.content? path).isSome || t.isDir path

/-- How many bytes the files hold. -/
def weight (t : Table) : Nat := (t.files.values.map ByteArray.size).foldr (· + ·) 0

/-- The table as a source. -/
def source (t : Table) : Source where
  read := t.read
  list dir := .ok (t.list dir)
  isDir := t.isDir
  present := t.present
  depth := t.weight + 2

end Table

/-- Looks keys up in a table.  A chain holds the outermost file and then distinct
files of the table. -/
def Resolver.ofTable (t : Table) : Resolver where
  resolve key := t.read ⟨key⟩
  depth := t.size + 1

end Schemata
