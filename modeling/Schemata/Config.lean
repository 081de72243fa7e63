/-
Settings of a batch.

The defaults accept every setting as valid.  What is checked is what would make a run
pointless: an extension no file can have, or no room for any error.
-/
import Schemata.Lowering
import Schemata.Path

namespace Schemata

/-- What a batch does about a file that fails. -/
inductive BatchMode where
  /-- Stop with its error. -/
  | failFast
  /-- Leave it out and keep its error. -/
  | bestEffort
deriving DecidableEq, Repr, Inhabited

namespace Nesting

/-- The name of the mode in a configuration. -/
def word : Nesting → String
  | nested => "nested"
  | flatten => "flatten"

/-- The mode of this name. -/
def ofWord? (w : String) : Option Nesting := [nested, flatten].find? (·.word = w)

end Nesting

namespace BatchMode

/-- The name of the mode in a configuration. -/
def word : BatchMode → String
  | failFast => "fail_fast"
  | bestEffort => "best_effort"

/-- The mode of this name. -/
def ofWord? (w : String) : Option BatchMode := [failFast, bestEffort].find? (·.word = w)

end BatchMode

/-- Settings of a batch. -/
structure Config where
  /-- The extension of schema files, without its dot. -/
  extension : String
  /-- Directories searched for imports after a root's own. -/
  includePaths : List Path
  nesting : Nesting
  mode : BatchMode
  /-- How many errors end a run that keeps them. -/
  maxErrors : Nat
deriving DecidableEq, Repr

namespace Config

/-- The settings that hold unless others are given. -/
def default : Config := ⟨"proto", [], .nested, .failFast, 10⟩

instance : Inhabited Config := ⟨default⟩

/-- The complaint about an extension. -/
def extensionFault (extension : String) : String :=
  "extension must be non-empty and given without a leading dot, got '" ++ extension ++ "'"

/-- Refuses settings a run cannot work with. -/
def validate (c : Config) : Except Error Unit :=
  if c.extension = "" ∨ c.extension.toList.head? = some '.' then
    .error (.config (extensionFault c.extension))
  else if c.maxErrors = 0 then .error (.config "max_errors must be at least 1")
  else .ok ()

/-- The path has the extension of schema files. -/
def matchesExtension (c : Config) (p : Path) : Bool := p.extension? = some (c.extension : Raw)

end Config

end Schemata
