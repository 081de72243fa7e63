/-
Reading, move by move.

A reader hands on the tokens that are left, so nothing it does can lead outside the list, and
nothing tells where it stood on the way.  Here each production is written for a cursor that
stands in a list of tokens.  There are three moves: to look at the token there, to ask for its
line and to go on by one token.  Going on checks nothing: a production that goes on at the
wrong place goes on all the same.

A `Program` is the moves that follow, as a tree that branches on what is seen.  The loops of
the grammar and the body of a message, which contains itself, are called by name, so that
every program is a finite tree.  The programs have the names of the readers, and the grammar
they follow is written above those.
-/
import Schemata.Schema.Reading

namespace Schemata

open Reader (ident? str? number? segment? signedValue? literal? goesOn? label? scalar?)

/-- What is called by name, and what the call hands back: the rest of a dotted name, of the
name of an option, of options in brackets and of the body of an enum or a message, and the
statements up to the end. -/
inductive Routine : Type → Type where
  | names : Routine (List String)
  | segments : Routine (List Unit)
  | assignments : Routine Unit
  | values (name : String) : Routine (List ValueDecl)
  | members (name : String) : Routine (List Member)
  | statements : Routine (List Decl)

/-- The moves that follow. -/
inductive Program (α : Type) : Type 1 where
  | done (a : α)
  | refused (fault : Fault)
  /-- Looks at the token there. -/
  | looking (next : Token → Program α)
  /-- Asks for its line. -/
  | lining (next : Nat → Program α)
  /-- Goes on by one token. -/
  | advancing (next : Program α)
  | calling {β : Type} (r : Routine β) (next : β → Program α)

namespace Program

variable {α β : Type}

/-- One program and then another, on what the first hands back. -/
def andThen : Program α → (α → Program β) → Program β
  | .done a, f => f a
  | .refused fault, _ => .refused fault
  | .looking next, f => .looking fun t => (next t).andThen f
  | .lining next, f => .lining fun n => (next n).andThen f
  | .advancing next, f => .advancing (next.andThen f)
  | .calling r next, f => .calling r fun a => (next a).andThen f

instance : Monad Program where
  pure := .done
  bind := andThen

theorem bind_done (p : Program α) : p >>= .done = p := by
  show p.andThen .done = p
  induction p with
  | done a => rfl
  | refused fault => rfl
  | looking next ih => exact congrArg Program.looking (funext ih)
  | lining next ih => exact congrArg Program.lining (funext ih)
  | advancing next ih => exact congrArg Program.advancing ih
  | calling r next ih => exact congrArg (Program.calling r) (funext ih)

/-! ### Single moves -/

def refuse (fault : Fault) : Program α := .refused fault

def peek : Program Token := .looking .done

def line : Program Nat := .lining .done

def advance : Program Unit := .advancing (.done ())

def call (r : Routine α) : Program α := .calling r .done

/-- Goes on if `value?` has a value for the token there. -/
def take (wanted : Expected) (value? : Token → Option α) : Program α := do
  match value? (← peek) with
  | some a => advance; return a
  | none => refuse (.expected wanted)

/-- Goes on at exactly the token `t`. -/
def expect (t : Token) : Program Unit :=
  take (.token t) fun u => if u = t then some () else none

/-- Goes on at the token `t`, and says whether it was there. -/
def accept (t : Token) : Program Bool := do
  if (← peek) = t then
    advance
    return true
  else
    return false

/-! ### Leaves -/

def identifier : Program String := take .identifier ident?

def string : Program String := take .string str?

/-- A dot and a part, and what is behind them; nothing where there is no dot. -/
def dotThen (part : Program α) (more : Program (List α)) : Program (List α) := do
  if (← peek) = .punct .dot then
    advance
    let a ← part
    return a :: (← more)
  else
    return []

def dottedName : Program (List String) := do
  let first ← identifier
  return first :: (← call .names)

def integer (negative : Bool) : Program Int32 := do
  match ← peek with
  | .int n =>
    match number? (if negative then -n else n) with
    | some value => advance; return value
    | none =>
      if n = .maxValue then refuse .literalOutOfRange
      else refuse (.outOfRange (if negative then -n else n))
  | _ => refuse (.expected .integer)

def signedInteger : Program Int32 := do
  let negative ← accept (.punct .minus)
  integer negative

/-! ### Options -/

def segment : Program Unit := take .optionName segment?

def optionHead : Program Unit := do
  if ← accept (.punct .openParen) then
    segment
    let _ ← call .segments
    expect (.punct .closeParen)
  else
    segment

def optionName : Program Unit := do
  optionHead
  let _ ← call .segments

def constant : Program Unit := do
  if ← accept (.punct .minus) then
    take .signedNumber signedValue?
  else
    match ← peek with
    | .ident _ => let _ ← dottedName
    | _ => take .optionValue literal?

def assignment : Program Unit := do
  optionName
  expect (.punct .equals)
  constant

def optionStatement : Program Unit := do
  expect (.keyword .option)
  assignment
  expect (.punct .semicolon)

def fieldOptions : Program Unit := do
  if ← accept (.punct .openBracket) then call .assignments

/-! ### Fields and enums -/

def optionalLabel : Program (Option Label) := do
  match label? (← peek) with
  | some l => advance; return some l
  | none => return none

def typeRef : Program TypeRef := do
  match ← peek with
  | .ident _ => return .named (← dottedName)
  | _ => return .scalar (← take .fieldType scalar?)

def field : Program FieldDecl := do
  let line ← line
  let label? ← optionalLabel
  let type ← typeRef
  let name ← identifier
  expect (.punct .equals)
  let number ← integer false
  fieldOptions
  expect (.punct .semicolon)
  return { label?, type, name, number, line }

def enumValue : Program ValueDecl := do
  let line ← line
  let name ← identifier
  expect (.punct .equals)
  let number ← signedInteger
  fieldOptions
  expect (.punct .semicolon)
  return { name, number, line }

def enumItem (name : String) : Program (List ValueDecl) := do
  match ← peek with
  | .keyword .option => optionStatement; return []
  | .punct .semicolon => advance; return []
  | .eof => refuse (.expected (.closeEnum name))
  | _ => return [← enumValue]

def enum : Program EnumDecl := do
  let line ← line
  expect (.keyword .enum)
  let name ← identifier
  expect (.punct .openBrace)
  let values ← call (.values name)
  return { name, line, values }

/-! ### Messages and statements -/

def message : Program (String × Nat × List Member) := do
  let line ← line
  expect (.keyword .message)
  let name ← identifier
  expect (.punct .openBrace)
  return (name, line, ← call (.members name))

def plainMember : Program (List Member) := do
  match ← peek with
  | .keyword .enum => return [.enum (← enum)]
  | .keyword .option => optionStatement; return []
  | .punct .semicolon => advance; return []
  | _ => return [.field (← field)]

def importKind : Program ImportKind := do
  match ← peek with
  | .ident "public" => advance; return .reexport
  | .ident "weak" => advance; return .weak
  | _ => return .plain

/-- An import, where its first word was seen. -/
def importStatement (line : Nat) : Program ImportDecl := do
  advance
  let kind ← importKind
  let path ← string
  expect (.punct .semicolon)
  return { path, kind, line }

/-- A package, where its first word was seen. -/
def packageStatement (line : Nat) : Program Decl := do
  advance
  let segments ← dottedName
  expect (.punct .semicolon)
  return .package (".".intercalate segments) line

def statement : Program (List Decl) := do
  let line ← line
  match ← peek with
  | .keyword .importing => return [.importing (← importStatement line)]
  | .keyword .package => return [← packageStatement line]
  | .keyword .message =>
    let (name, line, body) ← message
    return [.message name line body]
  | .keyword .enum => return [.enum (← enum)]
  | .keyword .option => optionStatement; return []
  | .punct .semicolon => advance; return []
  | _ => refuse (.expected .declaration)

def schema : Program Schema := do
  expect (.keyword .edition)
  expect (.punct .equals)
  let edition ← string
  expect (.punct .semicolon)
  let decls ← call .statements
  return { edition, decls }

end Program

open Program in
/-- What is done on a call. -/
def Routine.body {α : Type} : Routine α → Program α
  | .names => dotThen identifier (call .names)
  | .segments => dotThen segment (call .segments)
  | .assignments => do
    assignment
    if ← take .optionSeparator goesOn? then call .assignments
  | .values name => do
    match ← peek with
    | .punct .closeBrace => advance; return []
    | _ => return (← enumItem name) ++ (← call (.values name))
  | .members name => do
    match ← peek with
    | .punct .closeBrace => advance; return []
    | .keyword .message =>
      let (inner, line, body) ← message
      return .message inner line body :: (← call (.members name))
    | .eof => refuse (.expected (.closeMessage name))
    | _ => return (← plainMember) ++ (← call (.members name))
  | .statements => do
    match ← peek with
    | .eof => return []
    | _ => return (← statement) ++ (← call .statements)

end Schemata
