/-
Compiling a file, and loading it with everything it imports.

On its own a file is decoded, cut into tokens, read as a tree and lowered with the tree's
own enum names; its imports are recorded and not followed.  Each stage either hands on its
result or ends the work with the error that belongs to it.

Imports are followed depth first, in the order they are written, and a file is added
to the set when all its imports are in: what a file needs comes before it, and a file
met twice is compiled once.  The chain of files that are open leads from the outermost
to the one being read; an import of a file on it is a cycle.

A load may fail half way.  The imports finished until then stay, so progress is kept
beside the outcome and not inside it.  Files already known, from an earlier set, count
as compiled and are not added again.

The recursion is on the length a chain may still have, which the resolver bounds.
-/
import Schemata.Token.Lexer
import Schemata.Schema.Reading
import Schemata.Lowering
import Schemata.Source.Table
import Schemata.Descriptor.Set
import Std.Data.TreeSet.Basic

namespace Schemata

/-! ### One file -/

/-- A tree and the descriptor lowered from it. -/
structure Compiled where
  schema : Schema
  file : Descriptor.File
deriving Repr, Inhabited

/-- A character that cannot be lexed, as an error of the file `name`. -/
def Unlexable.error (name : String) (u : Unlexable) : Error :=
  .lex name u.place.line u.place.col u.char

/-- A refused token list, as an error of the file `name`. -/
def Refusal.error (name : String) (r : Refusal) : Error :=
  .grammar name r.line r.message

/-- The tokens of the text of the file `name`. -/
def tokensOf (name text : String) : Except Error (List Located) :=
  (lex text).mapError (Unlexable.error name)

/-- The tree of the tokens of the file `name`. -/
def schemaOf (name : String) (tokens : List Located) : Except Error Schema :=
  (Schema.read tokens).mapError (Refusal.error name)

/-- Compiles the text of the file `name` on its own. -/
def compileText (name text : String) (nesting : Nesting) : Except Error Compiled := do
  let tokens ← tokensOf name text
  let schema ← schemaOf name tokens
  let file ← schema.lower name schema.enumNames nesting
  return { schema, file }

/-- Compiles the bytes of the file `name` on their own. -/
def compileBytes (name : String) (bytes : ByteArray) (nesting : Nesting) :
    Except Error Compiled :=
  match String.fromUTF8? bytes with
  | none => .error (.invalidUtf8 name)
  | some text => compileText name text nesting

/-! ### A file and its imports -/

namespace Loading

/-- What a load has come to: the files added, and the keys the resolver was asked
for, in order. -/
structure Progress where
  set : DescriptorSet
  asked : List String
deriving DecidableEq, Repr, Inhabited

/-- A progress, and the files whose imports are being followed: their names from the
outermost to the innermost, and the same names as a set, which is what an import is
looked up in. -/
structure State extends Progress where
  stack : List String
  opened : Std.TreeSet String

/-- A load under way: it may end with an error, and keeps its state in any case. -/
abbrev Loader := ExceptT Error (StateM State)

/-- What a load depends on and does not change. -/
structure Context where
  resolver : Resolver
  nesting : Nesting
  /-- Files that count as compiled although they are not in the set. -/
  known : DescriptorSet

namespace Loader

/-- Sets to work on a file.  An open one is a cycle, and one that counts as compiled,
being in the set or among those known, is left alone. -/
def unlessMet (ctx : Context) (name : String) (work : Loader Unit) : Loader Unit := do
  let s ← get
  if name ∈ s.opened then throw (.importCycle name s.stack)
  else if s.set.contains name || ctx.known.contains name then return
  else work

/-- Asks the resolver for an import of the file `importer`. -/
def ask (ctx : Context) (importer : String) (i : ImportDecl) : Loader ByteArray := do
  modify fun s => { s with asked := s.asked ++ [importKey i.path] }
  match ctx.resolver.resolve (importKey i.path) with
  | .ok bytes => return bytes
  | .error fault => throw (.importNotFound importer i.line i.path fault.message)

/-- Opens a file: it becomes the innermost one. -/
def enter (name : String) : Loader Unit :=
  modify fun s => { s with stack := s.stack ++ [name], opened := s.opened.insert name }

/-- Closes the innermost file, which is this one. -/
def leave (name : String) : Loader Unit :=
  modify fun s => { s with stack := s.stack.dropLast, opened := s.opened.erase name }

/-- Adds a finished file to the set. -/
def finish (file : Descriptor.File) : Loader Unit :=
  modify fun s => { s with set := s.set.insert file }

/-- Follows one import of the file `importer`, loading what it names by `load`. -/
def follow (ctx : Context) (load : String → ByteArray → Loader Unit) (importer : String)
    (i : ImportDecl) : Loader Unit :=
  unlessMet ctx (importKey i.path) do
    load (importKey i.path) (← ask ctx importer i)

/-- Loads a file, below which so many more may be opened. -/
def loadFile (ctx : Context) : Nat → String → ByteArray → Loader Unit
  | 0, name, _ => unlessMet ctx name (throw (.importDepth name))
  | depth + 1, name, bytes => unlessMet ctx name do
    let compiled ← ExceptT.mk (pure (compileBytes name bytes ctx.nesting))
    enter name
    compiled.schema.imports.forM (follow ctx (loadFile ctx depth) name)
    leave name
    finish compiled.file

end Loader

/-- How a load ended. -/
structure Outcome where
  result : Except Error Unit
  progress : Progress

/-- Runs a load from the set it starts with, no file being open. -/
def Loader.runFrom (load : Loader Unit) (set : DescriptorSet) : Outcome :=
  let (result, state) := load.run.run ⟨⟨set, []⟩, [], ∅⟩
  ⟨result, state.toProgress⟩

end Loading

open Loading

/-- Loads a file and its imports into a set, beside files that are known. -/
def loadOver (known : DescriptorSet) (resolver : Resolver) (nesting : Nesting) (name : String)
    (bytes : ByteArray) (set : DescriptorSet) : Outcome :=
  (Loader.loadFile ⟨resolver, nesting, known⟩ resolver.depth name bytes).runFrom set

/-- Loads a file and its imports into a set. -/
def loadInto (resolver : Resolver) (nesting : Nesting) (name : String) (bytes : ByteArray)
    (set : DescriptorSet) : Outcome :=
  loadOver .empty resolver nesting name bytes set

/-- A compiled set, and the keys the resolver was asked for. -/
structure CompiledSet where
  result : Except Error DescriptorSet
  asked : List String

/-- Compiles a file with its imports: the set has every file after its imports and the
file itself last. -/
def compile (resolver : Resolver) (nesting : Nesting) (name : String) (bytes : ByteArray) :
    CompiledSet :=
  let outcome := loadInto resolver nesting name bytes .empty
  ⟨outcome.result.map fun _ => outcome.progress.set, outcome.progress.asked⟩

end Schemata
