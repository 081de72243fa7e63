/-
What can go wrong between a schema text and its descriptors, as a text and as JSON.

An error ends the work on the file it arises in.  Each cause is a constructor with
what is needed to speak of it; the wording is `message`, and the place, where there
is one, is `file?` and `line`.

As JSON the flat form has the same four keys for every error.  The tagged form has the
kind and then what the kind of error carries.  Keys are in alphabetical order in both.
-/
import Schemata.Json
import Schemata.Text

namespace Schemata

/-- Why a file, a batch or a configuration is refused. -/
inductive Error where
  /-- A character that begins no lexeme, or a literal that is not closed. -/
  | lex (file : String) (line col : Nat) (char : Char)
  /-- A deviation from the grammar. -/
  | grammar (file : String) (line : Nat) (fault : String)
  /-- A field type that names nothing. -/
  | unresolvedType (file : String) (line : Nat) (typeName : String)
  /-- An import nothing could be read for. -/
  | importNotFound (file : String) (line : Nat) (path reason : String)
  /-- An import of a file that is still being compiled; the chain leads from the
  outermost such file to the innermost. -/
  | importCycle (path : String) (chain : List String)
  /-- A chain of imports longer than its resolver allows. -/
  | importDepth (path : String)
  | invalidUtf8 (file : String)
  /-- A source that cannot be read or listed. -/
  | io (path fault : String)
  | config (fault : String)
deriving DecidableEq, Repr, Inhabited

namespace Error

/-- The name of the kind of error. -/
def kind : Error → String
  | lex .. => "lex"
  | grammar .. => "syntax"
  | unresolvedType .. => "unresolved_type"
  | importNotFound .. => "import_not_found"
  | importCycle .. => "import_cycle"
  | importDepth .. => "import_depth"
  | invalidUtf8 .. => "invalid_utf8"
  | io .. => "io"
  | config .. => "config"

/-- The file the error belongs to, if it belongs to one. -/
def file? : Error → Option String
  | lex file .. => some file
  | grammar file .. => some file
  | unresolvedType file .. => some file
  | importNotFound file .. => some file
  | importCycle path _ => some path
  | importDepth path => some path
  | invalidUtf8 file => some file
  | io path _ => some path
  | config _ => none

/-- The line the error belongs to, zero if it belongs to none. -/
def line : Error → Nat
  | lex _ line .. => line
  | grammar _ line _ => line
  | unresolvedType _ line _ => line
  | importNotFound _ line .. => line
  | _ => 0

/-- A file and a line, as every message with a place begins. -/
def located (file : String) (line : Nat) (fault : String) : String :=
  file ++ ":" ++ toString line ++ ": " ++ fault

/-- The full text of the error. -/
def message : Error → String
  | lex file line col char =>
    file ++ ":" ++ toString line ++ ":" ++ toString col ++ ": unexpected character '"
      ++ char.toString ++ "'"
  | grammar file line fault => located file line ("syntax error: " ++ fault)
  | unresolvedType file line typeName =>
    located file line ("cannot resolve type '" ++ typeName ++ "'")
  | importNotFound file line path reason =>
    located file line ("import not found: '" ++ path ++ "' (" ++ reason ++ ")")
  | importCycle path chain =>
    "import cycle detected: " ++ " → ".intercalate chain ++ " → " ++ path
  | importDepth path => path ++ ": imports are nested too deeply"
  | invalidUtf8 file => file ++ ": source is not valid UTF-8"
  | io path fault => path ++ ": " ++ fault
  | config fault => "invalid configuration: " ++ fault

/-! ### As JSON -/

/-- A string or null. -/
def textOrNull : Option String → Json
  | some s => .ofString s
  | none => .null

/-- The error as one object with the same keys for every kind. -/
def flat (e : Error) : Json :=
  .ofEntries
    [("file", textOrNull e.file?),
      ("kind", .ofString e.kind),
      ("line", .integer e.line),
      ("message", .ofString e.message)]

/-- The error as its kind and what it carries. -/
def tagged (e : Error) : Json :=
  let kind : String × Json := ("kind", .ofString e.kind)
  match e with
  | lex file line col char =>
    .ofEntries [("ch", .ofString char.toString), ("col", .integer col), ("file", .ofString file),
      kind, ("line", .integer line)]
  | grammar file line fault =>
    .ofEntries [("file", .ofString file), kind, ("line", .integer line),
      ("message", .ofString fault)]
  | unresolvedType file line typeName =>
    .ofEntries [("file", .ofString file), kind, ("line", .integer line),
      ("type_name", .ofString typeName)]
  | importNotFound file line path reason =>
    .ofEntries [("file", .ofString file), kind, ("line", .integer line),
      ("path", .ofString path), ("reason", .ofString reason)]
  | importCycle path chain =>
    .ofEntries [("chain", .array (chain.map .ofString)), kind, ("path", .ofString path)]
  | importDepth path => .ofEntries [kind, ("path", .ofString path)]
  | invalidUtf8 file => .ofEntries [("file", .ofString file), kind]
  | io path fault => .ofEntries [kind, ("message", .ofString fault), ("path", .ofString path)]
  | config fault => .ofEntries [kind, ("message", .ofString fault)]

end Error

end Schemata
