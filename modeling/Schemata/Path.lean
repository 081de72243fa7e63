/-
Paths.

A path is bytes, and two ways of writing can spell one path: its components say where it
leads.  Repeated slashes, and dots inside or at the end, are no components; a leading
dot is one of its own, and `..` always is.  Paths compare by their components.  The
normal form resolves dots without looking at any file: `..` takes back the name before
it, is dropped at the root, and stays at the front of a relative path.
-/
import Schemata.Path.Segments

namespace Schemata

/-- A path as it is written. -/
structure Path where ofRaw ::
  raw : Raw
deriving DecidableEq, Repr, Inhabited

/-- The path a text spells. -/
def Path.mk (text : String) : Path := ⟨text⟩

/-- The path as a text, as far as it is one. -/
def Path.text (p : Path) : String := p.raw.lossy

/-- A part of a path. -/
inductive Component where
  | root
  /-- A leading dot. -/
  | here
  | up
  | name (s : Raw)
deriving DecidableEq, Repr, Inhabited

namespace Component

/-- The component as it is written, the root as nothing before its slash. -/
def raw : Component → Raw
  | root => []
  | here => [dot]
  | up => [dot, dot]
  | name s => s

/-- The name, if the component is one. -/
def name? : Component → Option Raw
  | name s => some s
  | _ => none

/-- The component a segment stands for anywhere but at the front. -/
def ofSegment? (s : Raw) : Option Component :=
  if s = [] ∨ s = [dot] then none
  else if s = [dot, dot] then some up
  else some (name s)

/-- The place of a component among those of other sorts: the root, a dot, `..`, then
the names. -/
def rank : Component → Nat
  | root => 0
  | here => 1
  | up => 2
  | name _ => 3

/-- Components are in the order of their sorts, and names among themselves in the order
of their bytes. -/
instance : Ord Component := ⟨compareLex (compareOn rank) (compareOn raw)⟩

instance : Std.TransOrd Component :=
  inferInstanceAs (Std.TransCmp (compareLex (compareOn rank) (compareOn raw)))

instance : Std.LawfulEqOrd Component where
  eq_of_compare {a b} h := by
    obtain ⟨hr, ht⟩ := Ordering.then_eq_eq.mp h
    have hr : a.rank = b.rank := Std.LawfulEqCmp.eq_of_compare hr
    have ht : a.raw = b.raw := Std.LawfulEqCmp.eq_of_compare ht
    cases a <;> cases b <;> simp_all [rank, raw]

end Component

namespace Path

/-- The path begins at the root. -/
def isAbsolute (p : Path) : Bool := p.raw.head? = some slash

/-- The components of the segments of a path. -/
def componentsOf : List Raw → List Component
  | [] => []
  | [s] => if s = [dot] then [.here] else (Component.ofSegment? s).toList
  | s :: ss =>
    (if s = [] then [.root] else if s = [dot] then [.here] else (Component.ofSegment? s).toList)
      ++ ss.filterMap Component.ofSegment?

/-- The components of a path. -/
def components (p : Path) : List Component := componentsOf (segments p.raw)

/-- The path that components spell. -/
def ofComponents : List Component → Path
  | .root :: cs => ⟨slash :: joinSlash (cs.map Component.raw)⟩
  | cs => ⟨joinSlash (cs.map Component.raw)⟩

/-- The path `q` seen from `p`: an absolute path is itself. -/
def join (p q : Path) : Path :=
  if q.isAbsolute then q
  else if p.raw = [] ∨ p.raw.getLast? = some slash then ⟨p.raw ++ q.raw⟩
  else ⟨p.raw ++ slash :: q.raw⟩

/-! ### Normal form -/

/-- Takes one more component onto a path in normal form, whose last component is at
the head of the list. -/
def pushNormal (stack : List Component) : Component → List Component
  | .here => stack
  | .up =>
    match stack with
    | .name _ :: rest => rest
    | .root :: _ => stack
    | _ => .up :: stack
  | c => c :: stack

/-- The components of the normal form. -/
def normalComponents (p : Path) : List Component :=
  (p.components.foldl pushNormal []).reverse

/-- The normal form. -/
def normalize (p : Path) : Path := ofComponents p.normalComponents

/-! ### Parts of a path -/

/-- The last component, if it is a name. -/
def fileName? (p : Path) : Option Raw := p.components.getLast?.bind Component.name?

/-- What follows the last dot of a file name, if something stands before that dot. -/
def extensionOf? (name : Raw) : Option Raw :=
  let tail := (name.reverse.takeWhile (· ≠ dot)).reverse
  let head := name.reverse.dropWhile (· ≠ dot)
  if head.length ≤ 1 then none else some tail

/-- The extension of the file name. -/
def extension? (p : Path) : Option Raw := p.fileName?.bind extensionOf?

/-- A segment that is no component. -/
def isIdle (s : Raw) : Bool := s = [] || s = [dot]

/-- The segments through the last that is a component. -/
def dropIdle (ss : List Raw) : List Raw :=
  (ss.reverse.dropWhile isIdle).reverse

/-- The segments before the last that is a component; nothing if none is. -/
def parentSegments? (ss : List Raw) : Option (List Raw) :=
  match dropIdle ss with
  | [] => none
  | live => some (dropIdle live.dropLast)

/-- The path without its last component.  Neither the root nor the empty path has
one. -/
def parent? (p : Path) : Option Path :=
  match segments p.raw with
  | [] => none
  | lead :: body =>
    match parentSegments? body with
    | some rest =>
      if lead = [] ∧ rest = [] then some ⟨[slash]⟩ else some ⟨joinSlash (lead :: rest)⟩
    | none => if lead = [] then none else some ⟨[]⟩

/-- The components of `p` after those of `q`, if those of `q` begin it. -/
def rest? (q p : Path) : Option (List Component) :=
  if q.components.isPrefixOf p.components then some (p.components.drop q.components.length)
  else none

/-- The names on the way from `root` to a file found under it. -/
def namesBelow (root p : Path) : List Raw :=
  ((root.rest? p).getD p.components).filterMap Component.name?

/-- The name of a file found under `root`: the names on the way from there, as a text. -/
def relativeName (root p : Path) : String :=
  "/".intercalate ((root.namesBelow p).map Raw.lossy)

end Path

end Schemata
