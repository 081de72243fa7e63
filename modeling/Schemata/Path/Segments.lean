/-
Names and paths as a disk keeps them, and what stands between slashes.

They are bytes, and the bytes need not be a text.  A text stands for the bytes of its
characters.  Shown as a text, bytes lose what no character has: where none begins, what
could have become one is shown as a single replacement character.  So different names
can look alike.

A path is cut at every slash; two slashes in a row, or one at an end, leave an empty
segment.

Imports are texts, and go by keys.  However an import spells its path, the file is asked
for and recorded under one key: no slash at the front, no empty segment, no dot, and `..`
only at the front, where it is left for the resolver to refuse.
-/

namespace Schemata

/-! ### Bytes and texts -/

/-- A name or a path, or a part of one. -/
abbrev Raw := List UInt8

/-- The byte of a slash. -/
abbrev slash : UInt8 := 47

/-- The byte of a dot. -/
abbrev dot : UInt8 := 46

namespace Raw

/-- The bytes of a text. -/
def ofString (s : String) : Raw := s.toList.flatMap String.utf8EncodeChar

instance : Coe String Raw := ⟨ofString⟩

/-- Some character of three bytes or more begins with these two. -/
def goesOn (lead next : UInt8) : Bool :=
  if lead = 0xE0 then 0xA0 ≤ next && next ≤ 0xBF
  else if lead = 0xED then 0x80 ≤ next && next ≤ 0x9F
  else if lead = 0xF0 then 0x90 ≤ next && next ≤ 0xBF
  else if lead = 0xF4 then 0x80 ≤ next && next ≤ 0x8F
  else 0xE1 ≤ lead && lead ≤ 0xF3 && 0x80 ≤ next && next ≤ 0xBF

/-- How many bytes at the front, where no character is, are those of the beginning of one;
at least the first counts. -/
def brokenLength : Raw → Nat
  | lead :: next :: rest =>
    if ¬goesOn lead next then 1
    else if lead < 0xF0 then 2
    else
      match rest with
      | third :: _ => if 0x80 ≤ third && third ≤ 0xBF then 3 else 2
      | [] => 2
  | _ => 1

/-- The characters shown for bytes, so many of which are passed over first. -/
def shown : Nat → Raw → List Char
  | _, [] => []
  | passed + 1, _ :: bs => shown passed bs
  | 0, b :: bs =>
    match (b :: bs).toByteArray.utf8DecodeChar? 0 with
    | some c => c :: shown (c.utf8Size - 1) bs
    | none => '\uFFFD' :: shown (brokenLength (b :: bs) - 1) bs

/-- The bytes as a text. -/
def lossy (bs : Raw) : String := String.ofList (shown 0 bs)

end Raw

/-! ### Paths -/

/-- The stretches between the separators. -/
def cutAt {α : Type} [DecidableEq α] (sep : α) : List α → List (List α)
  | [] => [[]]
  | c :: cs =>
    if c = sep then [] :: cutAt sep cs
    else
      match cutAt sep cs with
      | [] => [[c]]
      | s :: ss => (c :: s) :: ss

/-- The segments of a path. -/
def segments (path : Raw) : List Raw := cutAt slash path

/-- Segments with slashes between them. -/
def joinSlash (ss : List Raw) : Raw := List.intercalate [slash] ss

/-! ### Import keys -/

/-- The segments of a text. -/
def textSegments (text : String) : List String := (cutAt '/' text.toList).map String.ofList

/-- Takes one more segment onto a key, whose last segment is at the head of the list. -/
def pushKey (stack : List String) (s : String) : List String :=
  if s = "" ∨ s = "." then stack
  else if s = ".." then
    match stack with
    | top :: rest => if top = ".." then s :: stack else rest
    | [] => [s]
  else s :: stack

/-- The segments of the key of a path. -/
def keySegments (path : String) : List String :=
  ((textSegments path).foldl pushKey []).reverse

/-- The key of a path. -/
def importKey (path : String) : String := "/".intercalate (keySegments path)

end Schemata
