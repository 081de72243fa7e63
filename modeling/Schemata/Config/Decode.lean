/-
Settings from a TOML document.

A document gives settings by their names; those it leaves out have their defaults, and
a name that is no setting is an error.  A mode is given by its name, or as a table
whose only key is that name and holds nothing.
-/
import Schemata.Config
import Schemata.Source
import Schemata.Toml.Document

namespace Schemata

/-- Why a text gives no settings. -/
inductive ConfigError where
  /-- It is no document of settings. -/
  | malformed
  /-- The settings are refused, or could not be read. -/
  | refused (e : Error)
deriving DecidableEq, Repr

namespace Config

open Toml (Value)

/-- A text. -/
def text? : Value → Option String
  | .string s => some s
  | _ => none

/-- A list of paths. -/
def paths? : Value → Option (List Path)
  | .array vs => (vs.mapM text?).map (·.map Path.mk)
  | _ => none

/-- The name of a mode. -/
def mode? : Value → Option String
  | .string s => some s
  | .table [(s, .table [])] => some s
  | .table [(s, .array [])] => some s
  | _ => none

/-- A count. -/
def count? : Value → Option Nat
  | .integer n => if 0 ≤ n then some n.toNat else none
  | _ => none

/-- The settings with one more given. -/
def give? (c : Config) : String × Value → Option Config
  | ("extension", v) => (text? v).map fun extension => { c with extension }
  | ("include_paths", v) => (paths? v).map fun includePaths => { c with includePaths }
  | ("nesting", v) => ((mode? v).bind Nesting.ofWord?).map fun nesting => { c with nesting }
  | ("batch_mode", v) => ((mode? v).bind BatchMode.ofWord?).map fun mode => { c with mode }
  | ("max_errors", v) => (count? v).map fun maxErrors => { c with maxErrors }
  | _ => none

/-- The settings a text gives, checked. -/
def ofToml (text : String) : Except ConfigError Config :=
  match (Toml.read? text).bind fun entries => entries.foldlM give? default with
  | none => .error .malformed
  | some c => (c.validate.map fun _ => c).mapError .refused

/-- A settings file that could not be read, as an error. -/
def unreadable (path : Path) (fault : String) : ConfigError :=
  .refused (.config ("could not read '" ++ path.text ++ "': " ++ fault))

/-- The settings of a file. -/
def load (source : Source) (path : Path) : Except ConfigError Config :=
  match source.read path with
  | .error fault => .error (unreadable path fault.message)
  | .ok bytes =>
    match String.fromUTF8? bytes with
    | none => .error (unreadable path "stream did not contain valid UTF-8")
    | some text => ofToml text

end Config

end Schemata
