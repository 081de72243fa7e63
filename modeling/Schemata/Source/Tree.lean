/-
Files in a tree of directories.

Paths are walked segment by segment from the directory the tree stands in.  What a
path goes through has to be a directory, also where it goes on with a dot, with `..`
or with nothing but a slash; so unlike in a table a name must exist to be taken back.
Nothing can be reached outside the tree: the root and whatever lies above count as
missing, and so does the empty path.

Writing makes every directory on the way, also one that the path only goes into to
leave it by `..` again.

Listed paths keep the spelling of the directory they were asked for.
-/
import Schemata.Source

namespace Schemata

/-- Files and directories by their names from the top. -/
structure Tree where
  files : List (List Raw × ByteArray)
  /-- Directories that were made, with files in them or not. -/
  dirs : List (List Raw)
deriving Inhabited

namespace Tree

/-- The tree of nothing. -/
def empty : Tree := ⟨[], []⟩

/-- The content of the file at a place. -/
def file? (t : Tree) (place : List Raw) : Option ByteArray :=
  (t.files.find? (·.1 = place)).map (·.2)

/-- A directory is at the place: the top, or something lies in it, or it was made. -/
def isDirAt (t : Tree) (place : List Raw) : Bool :=
  place.isEmpty || t.dirs.any place.isPrefixOf
    || t.files.any fun f => place.isPrefixOf f.1 && f.1 ≠ place

/-- The complaint about a place that is no directory. -/
def notDirAt (t : Tree) (place : List Raw) : AccessFault :=
  if (t.file? place).isSome then .notADirectory else .missing

/-! ### Writing -/

/-- Goes on from a place by one component of a path, making the directory a name stands
for. -/
def enter (t : Tree) (place : List Raw) : Component → Except AccessFault (Tree × List Raw)
  | .root => .error .missing
  | .here => .ok (t, place)
  | .up => if place = [] then .error .missing else .ok (t, place.dropLast)
  | .name s =>
    if (t.file? (place ++ [s])).isSome then .error .notADirectory
    else .ok ({ t with dirs := (place ++ [s]) :: t.dirs }, place ++ [s])

/-- Goes on by components from the top, making directories on the way. -/
def enterAll (t : Tree) (cs : List Component) : Except AccessFault (Tree × List Raw) :=
  cs.foldlM (fun here c => here.1.enter here.2 c) (t, [])

/-- Makes a directory and those on the way to it. -/
def addDir (t : Tree) (path : Path) : Except AccessFault Tree := do
  return (← t.enterAll path.components).1

/-- Writes a file, in place of the one that is there, and makes the directories on the
way to it.  A path that ends in a slash or in dots names no file. -/
def addFile (t : Tree) (path : Path) (content : ByteArray) : Except AccessFault Tree := do
  let (made, dir) ← t.enterAll path.components.dropLast
  match (segments path.raw).getLast?.bind Component.ofSegment? with
  | some (.name s) =>
    let place := dir ++ [s]
    if made.isDirAt place then .error .isADirectory
    else return { made with files := (place, content) :: made.files.filter (·.1 ≠ place) }
  | _ => .error .isADirectory

/-! ### Reading -/

/-- Goes on from a place by one segment of a path. -/
def step (t : Tree) (place : List Raw) (segment : Raw) : Except AccessFault (List Raw) :=
  if ¬t.isDirAt place then .error (t.notDirAt place)
  else if segment = [] ∨ segment = [dot] then .ok place
  else if segment = [dot, dot] then
    if place = [] then .error .missing else .ok place.dropLast
  else .ok (place ++ [segment])

/-- The place a path leads to, whether or not anything is there. -/
def walk (t : Tree) (path : Path) : Except AccessFault (List Raw) :=
  if 0 ∈ path.raw then .error .nulInPath
  else if path.raw = [] ∨ path.isAbsolute then .error .missing
  else (segments path.raw).foldlM t.step []

/-- The content of a file. -/
def read (t : Tree) (path : Path) : Except AccessFault ByteArray := do
  let place ← t.walk path
  match t.file? place with
  | some content => .ok content
  | none => .error (if t.isDirAt place then .isADirectory else .missing)

/-- The path leads to a directory. -/
def isDir (t : Tree) (path : Path) : Bool :=
  match t.walk path with
  | .ok place => t.isDirAt place
  | .error _ => false

/-- The path leads to a file or a directory. -/
def present (t : Tree) (path : Path) : Bool :=
  match t.walk path with
  | .ok place => t.isDirAt place || (t.file? place).isSome
  | .error _ => false

/-! ### Listing -/

/-- The name by which one goes on from a place towards another one below it. -/
def nameTowards? (place other : List Raw) : Option Raw :=
  if place.isPrefixOf other then (other.drop place.length).head? else none

/-- The names in the directory at a place, each once, in whatever order the tree has them. -/
def namesIn (t : Tree) (place : List Raw) : List Raw :=
  ((t.dirs ++ t.files.map (·.1)).filterMap (nameTowards? place)).foldr List.insert []

/-- The names in a directory. -/
def readDir (t : Tree) (dir : Path) : Except AccessFault (List Raw) := do
  let place ← t.walk dir
  if t.isDirAt place then return t.namesIn place else .error (t.notDirAt place)

/-- The files found so far, and the directories that wait to be read, the next one first. -/
structure Listing where
  found : List Path
  pending : List Path
deriving Inhabited

/-- Takes down a path that was come across: a directory waits before the others. -/
def note (t : Tree) (l : Listing) (p : Path) : Listing :=
  if t.isDir p then { l with pending := p :: l.pending } else { l with found := l.found ++ [p] }

/-- Reads the directory that is next, or is done if none waits. -/
def readNext (t : Tree) (l : Listing) : Except AccessFault (Listing ⊕ Listing) := do
  match l.pending with
  | [] => return .inr l
  | dir :: rest =>
    let paths := (← t.readDir dir).map fun name => dir.join ⟨name⟩
    return .inl (paths.foldl t.note { l with pending := rest })

/-- The files below a directory: directories are read until none waits.  Nothing here says
that this ends; on names no disk has, `.` above all, it need not. -/
def list (t : Tree) (dir : Path) : Except AccessFault (List Path) := do
  let l ← repeatM t.readNext ⟨[], [dir]⟩
  return l.found.mergeSort fun p q => (compare p.components q.components).isLE

/-- How many bytes the files hold. -/
def weight (t : Tree) : Nat := (t.files.map fun f => f.2.size).foldr (· + ·) 0

/-- The tree as a source. -/
def source (t : Tree) : Source where
  read := t.read
  list := t.list
  isDir := t.isDir
  present := t.present
  depth := t.weight + 2

end Tree

end Schemata
