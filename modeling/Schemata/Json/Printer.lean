/-
Writing JSON.

One layout: two spaces for each level, every element and entry on a line of its own,
a colon and a space behind a key, and nothing inside the brackets of an empty
container.  In a string only the quote, the backslash and the control characters are
escaped, the five with a letter by their letter and the others by their code in
lower-case digits; every other character stands for itself.
-/
import Schemata.Json

namespace Schemata.Json

/-- The digit of base sixteen with the value `n`. -/
def hexDigit (n : Nat) : Char :=
  if n < 10 then Char.ofNat ('0'.toNat + n) else Char.ofNat ('a'.toNat + (n - 10))

/-- A character as it stands in a string. -/
def escape (c : Char) : List Char :=
  if c = '"' then ['\\', '"']
  else if c = '\\' then ['\\', '\\']
  else if c = '\x08' then ['\\', 'b']
  else if c = '\x0c' then ['\\', 'f']
  else if c = '\n' then ['\\', 'n']
  else if c = '\r' then ['\\', 'r']
  else if c = '\t' then ['\\', 't']
  else if c.toNat < 0x20 then
    ['\\', 'u', '0', '0', hexDigit (c.toNat / 16), hexDigit (c.toNat % 16)]
  else [c]

/-- A string in quotes.  What names no string is written as half a surrogate pair. -/
def quote : Option String → List Char
  | some s => '"' :: s.toList.flatMap escape ++ ['"']
  | none => '"' :: ['\\', 'u', 'd', '8', '0', '0'] ++ ['"']

/-- A line feed and the indentation of a level. -/
def newLine (level : Nat) : List Char :=
  '\n' :: List.replicate (2 * level) ' '

mutual

/-- The text of a value that stands at a level of indentation. -/
def write (level : Nat) : Json → List Char
  | null => "null".toList
  | bool true => "true".toList
  | bool false => "false".toList
  | integer n => (toString n).toList
  | decimal text => text.toList
  | string s? => quote s?
  | array [] => ['[', ']']
  | array (v :: vs) =>
    '[' :: newLine (level + 1) ++ write (level + 1) v ++ writeElements level vs
  | object [] => ['{', '}']
  | object ((key, v) :: entries) =>
    '{' :: newLine (level + 1) ++ quote key ++ ':' :: ' ' :: write (level + 1) v
      ++ writeEntries level entries

/-- The elements after the first, through the closing bracket. -/
def writeElements (level : Nat) : List Json → List Char
  | [] => newLine level ++ [']']
  | v :: vs => ',' :: newLine (level + 1) ++ write (level + 1) v ++ writeElements level vs

/-- The entries after the first, through the closing brace. -/
def writeEntries (level : Nat) : List (Option String × Json) → List Char
  | [] => newLine level ++ ['}']
  | (key, v) :: entries =>
    ',' :: newLine (level + 1) ++ quote key ++ ':' :: ' ' :: write (level + 1) v
      ++ writeEntries level entries

end

/-- The text of a value. -/
def pretty (v : Json) : String :=
  String.ofList (v.write 0)

end Schemata.Json
