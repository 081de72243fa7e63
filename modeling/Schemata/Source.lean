/-
Where files come from, and who answers for imports.

A source answers four questions about paths: what a file holds, which files lie below
a directory, whether a path is a directory, and whether anything is there at all.  It
is pure, so asking twice gives the same answer.

A source also bounds how long a chain of imports among its files can be.  A chain is
made of distinct keys, each written by an import in the file before it, so it can be
no longer than there are imports in all files; the number of bytes the files hold is
a bound that needs no reading.

A resolver maps import keys to contents.  Like a source it is pure, and it comes with
a bound on the chains of imports it can give rise to, so that loading is total; for
files of a finite table the bound is never met.

Include directories are tried in order.  A key that leads out of a directory is never
looked for in it: the candidate, in normal form, has to begin with the directory's
normal form and must not climb after that.
-/
import Schemata.Path

namespace Schemata

/-- Why a path could not be read or listed, or an import not be resolved. -/
inductive AccessFault where
  /-- The table has no such file. -/
  | notInTable (path : Path)
  /-- None of the directories has the file. -/
  | notInDirectories (dirs : List Path)
  /-- Nothing resolves imports. -/
  | noResolver (key : String)
  /-- Nothing is at the path. -/
  | missing
  | notADirectory
  | isADirectory
  /-- The path has a NUL in it, which no name on a disk can. -/
  | nulInPath
  /-- Another failure of the source, in its own words. -/
  | other (fault : String)
deriving DecidableEq, Repr, Inhabited

namespace AccessFault

/-- The kind of failure. -/
def kind : AccessFault → String
  | notInTable _ => "NotFound"
  | notInDirectories _ => "NotFound"
  | noResolver _ => "NotFound"
  | missing => "NotFound"
  | notADirectory => "NotADirectory"
  | isADirectory => "IsADirectory"
  | nulInPath => "InvalidInput"
  | other _ => "Other"

/-- The text of the failure. -/
def message : AccessFault → String
  | notInTable path => "file not found in memory: " ++ path.text
  | notInDirectories dirs => "not found in [" ++ ", ".intercalate (dirs.map (·.text)) ++ "]"
  | noResolver key => "no import resolver configured for '" ++ key ++ "'"
  | missing => "No such file or directory (os error 2)"
  | notADirectory => "Not a directory (os error 20)"
  | isADirectory => "Is a directory (os error 21)"
  | nulInPath => "file name contained an unexpected NUL byte"
  | other fault => fault

end AccessFault

/-- A source of files. -/
structure Source where
  read : Path → Except AccessFault ByteArray
  /-- The files below a directory, at any depth, in the order of their components. -/
  list : Path → Except AccessFault (List Path)
  isDir : Path → Bool
  /-- A file or a directory is at the path. -/
  present : Path → Bool
  /-- No chain of imports among the files is longer. -/
  depth : Nat

/-! ### Resolvers -/

/-- Maps import keys to contents. -/
structure Resolver where
  resolve : String → Except AccessFault ByteArray
  /-- No chain of files, the outermost included, is longer. -/
  depth : Nat

namespace Resolver

/-- Finds nothing. -/
def none : Resolver where
  resolve key := .error (.noResolver key)
  depth := 1

/-- The path of a key within a directory, unless it leads out. -/
def within? (dir : Path) (key : String) : Option Path :=
  let base := dir.normalize
  let candidate := (base.join ⟨key⟩).normalize
  match base.rest? candidate with
  | some rest => if .up ∈ rest then .none else some candidate
  | .none => .none

/-- The first candidate that is a file. -/
def locate? (source : Source) (dirs : List Path) (key : String) : Option Path :=
  (dirs.filterMap fun dir => within? dir key).find? fun candidate =>
    source.present candidate && !source.isDir candidate

/-- Looks keys up in include directories. -/
def ofDirectories (source : Source) (dirs : List Path) : Resolver where
  resolve key :=
    match locate? source dirs key with
    | some path => source.read path
    | .none => .error (.notInDirectories dirs)
  depth := source.depth

end Resolver

end Schemata
