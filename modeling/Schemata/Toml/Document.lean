/-
TOML documents.

A document is read in two steps: its text is cut into statements, each a header or an
assignment on lines of its own, and the statements are carried out in order.  An
assignment speaks of the table named by the header before it, and of the document's
own table where no header came yet.
-/
import Schemata.Toml.Reader

namespace Schemata.Toml

/-- Turns each line end into a single line feed.  A carriage return elsewhere is an
error wherever it stands. -/
def unifyLines : List Char → Option (List Char)
  | [] => some []
  | '\r' :: '\n' :: cs => (unifyLines cs).map ('\n' :: ·)
  | c :: cs => if c = '\r' then none else (unifyLines cs).map (c :: ·)

/-- Drops the mark a text may begin with. -/
def dropMark : List Char → List Char
  | '\uFEFF' :: cs => cs
  | cs => cs

/-- A statement of a document. -/
inductive Statement where
  | header (path : List String)
  | assign (path : List String) (v : Value)
deriving Repr

/-- What follows the end of a line, at which there may be a comment. -/
def lineEnd? (cs : List Char) : Option (List Char) :=
  let us := skipBlanks cs
  let vs := if us.head? = some '#' then skipComment us else us
  match vs with
  | [] => some []
  | '\n' :: rest => some rest
  | _ => none

/-- A header from behind its opening bracket. -/
def header? (cs : List Char) : Option (Statement × List Char) :=
  match path? cs with
  | some (path, ']' :: rest) => (lineEnd? rest).map (.header path, ·)
  | _ => none

/-- An assignment. -/
def assignment? (cs : List Char) : Option (Statement × List Char) :=
  match assigned? cs with
  | none => none
  | some (path, us) =>
    match valueOf us with
    | none => none
    | some ⟨(v, rest), _⟩ => (lineEnd? rest).map (.assign path v, ·)

/-- The statement at the front of a text. -/
def statement? : List Char → Option (Statement × List Char)
  | '[' :: cs => header? cs
  | cs => assignment? cs

theorem lineEnd?_length_le {cs rest : List Char} (h : lineEnd? cs = some rest) :
    rest.length ≤ cs.length := by
  have hb := skipBlanks_length_le cs
  have hc : (if (skipBlanks cs).head? = some '#' then skipComment (skipBlanks cs)
      else skipBlanks cs).length ≤ cs.length := by
    split
    · exact Nat.le_trans (dropWhile_length_le _ _) hb
    · exact hb
  unfold lineEnd? at h
  dsimp only at h
  split at h
  · cases h
    simp
  · rename_i hv
    cases h
    rw [hv, List.length_cons] at hc
    omega
  · simp at h

theorem header?_shorter {cs rest : List Char} {s : Statement} (h : header? cs = some (s, rest)) :
    rest.length < cs.length := by
  unfold header? at h
  split at h
  · rename_i hp
    obtain ⟨r, hr, heq⟩ := Option.map_eq_some_iff.mp h
    obtain ⟨-, rfl⟩ := Prod.mk.inj heq
    have := path?_shorter hp
    have := lineEnd?_length_le hr
    simp only [List.length_cons] at *
    omega
  · simp at h

theorem assignment?_shorter {cs rest : List Char} {s : Statement}
    (h : assignment? cs = some (s, rest)) : rest.length < cs.length := by
  unfold assignment? at h
  split at h
  · simp at h
  · rename_i ha
    split at h
    · simp at h
    · rename_i hv _
      obtain ⟨r, hr, heq⟩ := Option.map_eq_some_iff.mp h
      obtain ⟨-, rfl⟩ := Prod.mk.inj heq
      have := assigned?_shorter ha
      have := lineEnd?_length_le hr
      simp only at hv
      omega

theorem statement?_shorter {cs rest : List Char} {s : Statement}
    (h : statement? cs = some (s, rest)) : rest.length < cs.length := by
  unfold statement? at h
  split at h
  · exact Nat.lt_succ_of_lt (header?_shorter h)
  · exact assignment?_shorter h

/-- The statements of a text. -/
def statements? (cs : List Char) : Option (List Statement) :=
  match _hcs : skipGap cs with
  | [] => some []
  | c :: us =>
    match _hs : statement? (c :: us) with
    | none => none
    | some (s, rest) => (statements? rest).map (s :: ·)
termination_by cs.length
decreasing_by
  have := statement?_shorter _hs
  have := skipGap_length_le cs
  rw [_hcs] at this
  omega

/-- A document under construction: the last header, and the entries so far. -/
structure Draft where
  header : List String
  entries : Entries

/-- Carries out a statement. -/
def Draft.carryOut? (d : Draft) : Statement → Option Draft
  | .header path => (Entries.addHeader? path d.entries).map fun es => ⟨path, es⟩
  | .assign path v =>
    (Entries.assignUnder? path v d.header d.entries).map fun es => { d with entries := es }

/-- The entries of a document's own table, in the order of their first mention. -/
def read? (text : String) : Option (List (String × Value)) := do
  let cs ← unifyLines (dropMark text.toList)
  let d ← (← statements? cs).foldlM Draft.carryOut? ⟨[], []⟩
  return Entries.values d.entries

end Schemata.Toml
