/-
What a schema text is made of.

A lexeme is a reserved word, an identifier, a number, a string or one of eleven
punctuation characters; the end of the text counts as a last token of its own.  The
names of the scalar types are reserved, which is what tells a scalar field from a
field of a named type.  `describe` is how a token is spoken of in a syntax error.
-/
import Schemata.Scalar
import Schemata.Text

namespace Schemata

/-- A reserved word. -/
inductive Keyword where
  | edition
  | package
  | importing
  | option
  | message
  | enum
  | label (l : Label)
  | scalar (s : Scalar)
deriving DecidableEq, Repr, Inhabited

namespace Keyword

/-- The word as a schema writes it. -/
def word : Keyword → String
  | edition => "syntax"
  | package => "package"
  | importing => "import"
  | option => "option"
  | message => "message"
  | enum => "enum"
  | label l => l.word
  | scalar s => s.word

/-- The reserved word spelled like this, if there is one. -/
def ofWord? : String → Option Keyword
  | "syntax" => some edition
  | "package" => some package
  | "import" => some importing
  | "option" => some option
  | "message" => some message
  | "enum" => some enum
  | "optional" => some (label .optional)
  | "required" => some (label .required)
  | "repeated" => some (label .repeated)
  | w => (Scalar.ofWord? w).map scalar

@[simp] theorem ofWord?_word (k : Keyword) : ofWord? k.word = some k := by
  cases k with
  | label l => cases l <;> decide
  | scalar s => cases s <;> decide
  | _ => decide

theorem word_of_ofWord? {w : String} {k : Keyword} (h : ofWord? w = some k) : k.word = w := by
  unfold ofWord? at h
  split at h
  case h_10 =>
    obtain ⟨s, hs, rfl⟩ := Option.map_eq_some_iff.mp h
    exact Scalar.word_of_ofWord? hs
  all_goals
    cases h
    rfl

/-- The scalar type this word names. -/
def scalar? : Keyword → Option Scalar
  | scalar s => some s
  | _ => none

end Keyword

/-- A punctuation character. -/
inductive Punct where
  | openBrace | closeBrace
  | openBracket | closeBracket
  | openParen | closeParen
  | semicolon | equals | dot | comma | minus
deriving DecidableEq, Repr, Inhabited

namespace Punct

/-- The character itself. -/
def symbol : Punct → Char
  | openBrace => '{'
  | closeBrace => '}'
  | openBracket => '['
  | closeBracket => ']'
  | openParen => '('
  | closeParen => ')'
  | semicolon => ';'
  | equals => '='
  | dot => '.'
  | comma => ','
  | minus => '-'

/-- The punctuation a character is, if it is one. -/
def ofChar? : Char → Option Punct
  | '{' => some openBrace
  | '}' => some closeBrace
  | '[' => some openBracket
  | ']' => some closeBracket
  | '(' => some openParen
  | ')' => some closeParen
  | ';' => some semicolon
  | '=' => some equals
  | '.' => some dot
  | ',' => some comma
  | '-' => some minus
  | _ => none

@[simp] theorem ofChar?_symbol (p : Punct) : ofChar? p.symbol = some p := by
  cases p <;> rfl

theorem symbol_of_ofChar? {c : Char} {p : Punct} (h : ofChar? c = some p) : p.symbol = c := by
  unfold ofChar? at h
  split at h
  all_goals
    cases h
    try rfl

end Punct

/-- A lexeme's value, or the end of the text.  A text yields no integer below zero, because the
sign of a number is a token of its own. -/
inductive Token where
  | keyword (k : Keyword)
  | ident (name : String)
  | int (n : Int64)
  /-- A decimal number with a fraction or an exponent, as written. -/
  | float (digits : String)
  /-- A string's content, its escapes resolved. -/
  | str (content : String)
  | punct (p : Punct)
  | eof
deriving DecidableEq, Repr, Inhabited

/-- Where an integer may be missing, one that is there stands for its sixty-four bits. -/
instance Token.coeOptionInt : Coe (Option Int) (Option Int64) := ⟨Option.map Int64.ofInt⟩

namespace Token

/-- The token in the words of a syntax error. -/
def describe : Token → String
  | keyword k => "'" ++ k.word ++ "'"
  | ident name => "identifier '" ++ name ++ "'"
  | int n => "integer " ++ toString n
  | float digits => "number " ++ digits
  | str content => "string \"" ++ content ++ "\""
  | punct p => "'" ++ p.symbol.toString ++ "'"
  | eof => "end of input"

/-- The value of a word: the reserved word it spells, else an identifier. -/
def ofWord (w : String) : Token :=
  match Keyword.ofWord? w with
  | some k => keyword k
  | none => ident w

end Token

/-- A token and the place of its first character. -/
structure Located where
  token : Token
  place : Text.Position
deriving DecidableEq, Repr, Inhabited

end Schemata
