/-
The grammar of schema texts.

Each production is written above its definition the way a grammar writes it, with the
kinds of tokens in capitals.  A kind of token is a function that gives the tokens of that
kind a value, and none of them is one that a reader asks.  `INT` here is an integer that
thirty-two bits hold once it has its sign, except in the value of an option, where any
number will do.

The value of a tree is what it declares.  Options and empty statements declare nothing, so
where they may stand a tree gives a list with nothing in it; everything else comes in the
order it is written in, with the line of its first token.
-/
import Schemata.Proofs.Grammar.Production
import Schemata.Schema.Reading

namespace Schemata.Grammar

open Production

/-! ### Kinds of tokens -/

/-- `IDENT`, worth its word. -/
def ident? : Token → Option String
  | .ident w => some w
  | _ => none

/-- `STR`, worth its content. -/
def str? : Token → Option String
  | .str content => some content
  | _ => none

/-- `SEG`: a reserved word or `IDENT`. -/
def segment? : Token → Option Unit
  | .ident _ | .keyword _ => some ()
  | _ => none

/-- `LABEL`: `'optional'`, `'required'` or `'repeated'`. -/
def label? : Token → Option Label
  | .keyword (.label l) => some l
  | _ => none

/-- `SCALAR`: the name of a scalar type. -/
def scalar? : Token → Option Scalar
  | .keyword (.scalar s) => some s
  | _ => none

/-- `INT`, worth its value under its sign, which has to lie from `-2 ^ 31` to `2 ^ 31 - 1`.
The bounds are written out, so that no instance of a power stands in them. -/
def int32? (negative : Bool) : Token → Option Int32
  | .int n =>
    let value := if negative then -n.toInt else n.toInt
    if -0x80000000 ≤ value ∧ value ≤ 0x7FFFFFFF then some (.ofInt value) else none
  | _ => none

/-- `INT | FLOAT | IDENT`: what the value of an option may be behind a minus sign. -/
def signedValue? : Token → Option Unit
  | .int _ | .float _ | .ident _ => some ()
  | _ => none

/-- `INT | FLOAT | STR`: what it may be without one, besides a name. -/
def literal? : Token → Option Unit
  | .int _ | .float _ | .str _ => some ()
  | _ => none

/-- `'public' | 'weak'`: what a word before the path of an import makes of the import. -/
def importWord? : Token → Option ImportKind
  | .ident "public" => some .reexport
  | .ident "weak" => some .weak
  | _ => none

/-! ### Names and numbers -/

/-- `IDENT` -/
def identifier : Production String := token ident?

/-- `STR` -/
def string : Production String := token str?

section

variable {α : Type} (segment? : Token → Option α)

/-- `('.' SEG)*` -/
def dotTail : Production (List α) := (((punct .dot).seq (token segment?)).map Prod.snd).many

/-- `SEG ('.' SEG)*` -/
def dotted : Production (List α) :=
  ((token segment?).seq (dotTail segment?)).map fun (a, as) => a :: as

end

/-- `IDENT ('.' IDENT)*` -/
def dottedName : Production (List String) := dotted ident?

/-- `'-'? INT` -/
def signedInteger : Production Int32 := choice fun
  | true => ((punct .minus).seq (token (int32? true))).map Prod.snd
  | false => token (int32? false)

/-! ### Options -/

/-- How the name of an option begins. -/
inductive NameStart where
  | plain
  | custom

/-- `SEG | '(' SEG ('.' SEG)* ')'` -/
def optionHead : Production Unit := choice fun
  | NameStart.plain => token segment?
  | NameStart.custom =>
    ((punct .openParen).seq <| (dotted segment?).seq <| punct .closeParen).map fun _ => ()

/-- `optionHead ('.' SEG)*` -/
def optionName : Production Unit :=
  (optionHead.seq <| dotTail segment?).map fun _ => ()

/-- What the value of an option is. -/
inductive ConstantKind where
  | negative
  | name
  | literal

/-- `'-' (INT | FLOAT | IDENT) | IDENT ('.' IDENT)* | INT | FLOAT | STR` -/
def constant : Production Unit := choice fun
  | ConstantKind.negative => ((punct .minus).seq <| token signedValue?).map fun _ => ()
  | ConstantKind.name => dottedName.map fun _ => ()
  | ConstantKind.literal => token literal?

/-- `optionName '=' constant` -/
def assignment : Production Unit :=
  (optionName.seq <| (punct .equals).seq constant).map fun _ => ()

/-- `'option' assignment ';'` -/
def optionStatement : Production Unit :=
  ((keyword .option).seq <| assignment.seq <| punct .semicolon).map fun _ => ()

/-- `(',' assignment)*` -/
def moreAssignments : Production (List Unit) :=
  (((punct .comma).seq assignment).map Prod.snd).many

/-- `assignment (',' assignment)* ']'` -/
def assignments : Production Unit :=
  (assignment.seq <| moreAssignments.seq <| punct .closeBracket).map fun _ => ()

/-- `('[' assignments)?` -/
def fieldOptions : Production Unit :=
  ((punct .openBracket).seq assignments).opt.map fun _ => ()

/-! ### Fields and enums -/

/-- `LABEL?` -/
def optionalLabel : Production (Option Label) := (token label?).opt

/-- How a field writes its type. -/
inductive TypeKind where
  | scalar
  | named

/-- `SCALAR | IDENT ('.' IDENT)*` -/
def typeRef : Production TypeRef := choice fun
  | TypeKind.scalar => (token scalar?).map .scalar
  | TypeKind.named => dottedName.map .named

/-- `LABEL? typeRef IDENT '=' INT fieldOptions ';'` -/
def field : Production FieldDecl :=
  (optionalLabel.seq <| typeRef.seq <| identifier.seq <| (punct .equals).seq <|
    (token (int32? false)).seq <| fieldOptions.seq <| punct .semicolon).lined.map
    fun (line, label?, type, name, _, number, _, _) => { label?, type, name, number, line }

/-- `IDENT '=' '-'? INT fieldOptions ';'` -/
def enumValue : Production ValueDecl :=
  (identifier.seq <| (punct .equals).seq <| signedInteger.seq <| fieldOptions.seq <|
    punct .semicolon).lined.map
    fun (line, name, _, number, _, _) => { name, number, line }

/-- What the body of an enum holds. -/
inductive ItemKind where
  | option
  | empty
  | value

/-- `optionStatement | ';' | enumValue` -/
def enumItem : Production (List ValueDecl) := choice fun
  | ItemKind.option => optionStatement.map fun _ => []
  | ItemKind.empty => (punct .semicolon).map fun _ => []
  | ItemKind.value => enumValue.map fun v => [v]

/-- `enumItem*` -/
def enumItems : Production (List ValueDecl) := enumItem.many.map List.flatten

/-- `'enum' IDENT '{' enumItem* '}'` -/
def enum : Production EnumDecl :=
  ((keyword .enum).seq <| identifier.seq <| (punct .openBrace).seq <| enumItems.seq <|
    punct .closeBrace).lined.map
    fun (line, _, name, _, values, _) => { name, line, values }

/-! ### Messages -/

/-- `'message' IDENT '{'` -/
def messageHead : Production String :=
  ((keyword .message).seq <| identifier.seq <| punct .openBrace).map fun (_, name, _) => name

/-- What the body of a message holds besides messages. -/
inductive MemberKind where
  | enum
  | option
  | empty
  | field

/-- `enum | optionStatement | ';' | field` -/
def plainMember : Production (List Member) := choice fun
  | MemberKind.enum => enum.map fun e => [.enum e]
  | MemberKind.option => optionStatement.map fun _ => []
  | MemberKind.empty => (punct .semicolon).map fun _ => []
  | MemberKind.field => field.map fun f => [.field f]

/-- The trees of the body of a message: a brace that closes it, or a member and the rest,
where a message is a member with a body of its own. -/
inductive Body where
  | close (brace : (punct .closeBrace).Tree)
  | plain (member : plainMember.Tree) (rest : Body)
  | message (head : messageHead.Tree) (inner rest : Body)

namespace Body

def tokens : Body → List Located
  | close brace => (punct .closeBrace).tokens brace
  | plain member rest => plainMember.tokens member ++ rest.tokens
  | message head inner rest => messageHead.tokens head ++ (inner.tokens ++ rest.tokens)

def members : Body → List Member
  | close _ => []
  | plain member rest => plainMember.value member ++ rest.members
  | message head inner rest =>
    .message (messageHead.value head) (firstLine (messageHead.tokens head)) inner.members
      :: rest.members

end Body

/-- `(plainMember | message)* '}'` -/
def members : Production (List Member) := ⟨Body, Body.tokens, Body.members⟩

/-- `messageHead members` -/
def message : Production (String × Nat × List Member) :=
  (messageHead.seq members).lined.map fun (line, name, body) => (name, line, body)

/-! ### The whole text -/

/-- `('public' | 'weak')?` -/
def importKind : Production ImportKind := (token importWord?).opt.map fun k => k.getD .plain

/-- `'import' importKind STR ';'` -/
def importStatement : Production ImportDecl :=
  ((keyword .importing).seq <| importKind.seq <| string.seq <| punct .semicolon).lined.map
    fun (line, _, kind, path, _) => { path, kind, line }

/-- `'package' IDENT ('.' IDENT)* ';'` -/
def packageStatement : Production Decl :=
  ((keyword .package).seq <| dottedName.seq <| punct .semicolon).lined.map
    fun (line, _, segments, _) => .package (".".intercalate segments) line

/-- What stands at the top level. -/
inductive StatementKind where
  | importing
  | package
  | message
  | enum
  | option
  | empty

/-- `importStatement | packageStatement | message | enum | optionStatement | ';'` -/
def statement : Production (List Decl) := choice fun
  | StatementKind.importing => importStatement.map fun i => [.importing i]
  | StatementKind.package => packageStatement.map fun d => [d]
  | StatementKind.message => message.map fun (name, line, body) => [.message name line body]
  | StatementKind.enum => enum.map fun e => [.enum e]
  | StatementKind.option => optionStatement.map fun _ => []
  | StatementKind.empty => (punct .semicolon).map fun _ => []

/-- `statement*` -/
def statements : Production (List Decl) := statement.many.map List.flatten

/-- `'syntax' '=' STR ';' statement*` -/
def schema : Production Schema :=
  ((keyword .edition).seq <| (punct .equals).seq <| string.seq <| (punct .semicolon).seq
    statements).map fun (_, _, edition, _, decls) => { edition, decls }

/-- `schema EOF` -/
def file : Production Schema := (schema.seq (exactly .eof)).map Prod.fst

end Schemata.Grammar
