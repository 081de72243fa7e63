/-
Cutting a text into tokens.

A text is a sequence of pieces, each either trivia (a white-space character, a line
comment up to the end of its line, a block comment) or one lexeme.  `scan` takes the
piece at the front of a text, `lexFrom` takes pieces until nothing is left, carrying
the place along.  The pieces never lose a character: `scan_append` says that a
piece and what follows it are the text again, and that alone is why the loop ends
and why places may be computed from the pieces.

Lexing is all or nothing.  Where no piece begins, the error names the character
standing there: the quote of a string that is not closed on its line, the slash of a
comment that is never closed, or a character that begins nothing.
-/
import Schemata.Token

namespace Schemata

open Schemata.Text

/-- A character no piece begins with, and its place. -/
structure Unlexable where
  place : Position
  char : Char
deriving DecidableEq, Repr, Inhabited

namespace Lexer

/-- One piece of a text: the token it stands for, if it is no trivia, its own
characters, and the characters after it. -/
structure Piece where
  token? : Option Token
  text : List Char
  rest : List Char
deriving DecidableEq, Repr

/-! ### Comments -/

/-- What remains of a text after the next `*/`, and the characters up to it, the two
closing ones included. -/
def closeComment : List Char → Option (List Char × List Char)
  | [] => none
  | '*' :: '/' :: cs => some (['*', '/'], cs)
  | c :: cs => (closeComment cs).map fun (text, rest) => (c :: text, rest)

/-- A line comment ends before its line feed, which is white space of its own. -/
def lineComment (cs : List Char) : Piece :=
  ⟨none, cs.takeWhile (· != '\n'), cs.dropWhile (· != '\n')⟩

/-! ### Strings -/

/-- The characters a backslash and the character after it stand for.  An escape of
no meaning stands for itself, backslash included. -/
def unescape : Char → List Char
  | '"' => ['"']
  | '\'' => ['\'']
  | '\\' => ['\\']
  | 'n' => ['\n']
  | 't' => ['\t']
  | c => ['\\', c]

/-- The inside of a string up to its closing quote. -/
structure Quoted where
  content : List Char
  /-- The characters as written, the closing quote included. -/
  text : List Char
  rest : List Char
deriving DecidableEq, Repr

/-- Reads a string from behind its opening quote.  A line feed ends the attempt,
except directly behind a backslash. -/
def quoted (quote : Char) : List Char → Option Quoted
  | [] => none
  | c :: cs =>
    if c = '\n' then none
    else if c = quote then some ⟨[], [c], cs⟩
    else if c = '\\' then
      match cs with
      | [] => none
      | e :: cs => (quoted quote cs).map fun q =>
          ⟨unescape e ++ q.content, c :: e :: q.text, q.rest⟩
    else (quoted quote cs).map fun q => ⟨c :: q.content, c :: q.text, q.rest⟩

/-! ### Numbers -/

/-- A digit of base sixteen, in either case. -/
def isHexDigit (c : Char) : Bool :=
  c.isDigit || ('a' ≤ c && c ≤ 'f') || ('A' ≤ c && c ≤ 'F')

/-- The value of a digit of base sixteen. -/
def digitValue (c : Char) : Nat :=
  if c.isDigit then c.toNat - '0'.toNat
  else if 'a' ≤ c then c.toNat - 'a'.toNat + 10
  else c.toNat - 'A'.toNat + 10

/-- The number a run of digits writes, the most significant first. -/
def valueOf (base : Nat) (digits : List Char) : Nat :=
  digits.foldl (fun n d => n * base + digitValue d) 0

/-- An integer token, and the largest one where sixty-four bits do not hold the value. -/
def intToken (value : Nat) : Token :=
  .int (if value < 0x8000000000000000 then .ofNat value else .maxValue)

/-- The fraction at the front of a text, if there is one: a point and digits. -/
def fraction : List Char → List Char × List Char
  | '.' :: d :: cs =>
    if d.isDigit then
      ('.' :: (d :: cs).takeWhile Char.isDigit, (d :: cs).dropWhile Char.isDigit)
    else ([], '.' :: d :: cs)
  | cs => ([], cs)

/-- The sign at the front of a text, if there is one. -/
def sign : List Char → List Char × List Char
  | '+' :: cs => (['+'], cs)
  | '-' :: cs => (['-'], cs)
  | cs => ([], cs)

/-- The exponent at the front of a text, if there is one: its letter, perhaps a sign,
and digits. -/
def exponent : List Char → List Char × List Char
  | [] => ([], [])
  | e :: cs =>
    if (e = 'e' || e = 'E') && (sign cs).2.head?.any Char.isDigit then
      (e :: (sign cs).1 ++ (sign cs).2.takeWhile Char.isDigit,
        (sign cs).2.dropWhile Char.isDigit)
    else ([], e :: cs)

/-- A decimal number's token: an integer where nothing follows its whole digits, else
the text as written. -/
def decimalToken (whole tail : List Char) : Token :=
  if tail = [] then intToken (valueOf 10 whole) else .float (String.ofList (whole ++ tail))

/-- A decimal number: digits, then perhaps a fraction, then perhaps an exponent. -/
def decimal (cs : List Char) : Piece :=
  let whole := cs.takeWhile Char.isDigit
  let frac := fraction (cs.dropWhile Char.isDigit)
  let exp := exponent frac.2
  ⟨some (decimalToken whole (frac.1 ++ exp.1)), whole ++ (frac.1 ++ exp.1), exp.2⟩

/-- A number, from its first digit on: sixteen-based if a zero, an `x` and a digit of
that base begin it, else decimal. -/
def number : List Char → Piece
  | '0' :: x :: d :: cs =>
    if (x = 'x' || x = 'X') && isHexDigit d then
      let digits := (d :: cs).takeWhile isHexDigit
      ⟨some (intToken (valueOf 16 digits)), '0' :: x :: digits,
        (d :: cs).dropWhile isHexDigit⟩
    else decimal ('0' :: x :: d :: cs)
  | cs => decimal cs

/-! ### Words -/

/-- A character a word may begin with. -/
def isWordStart (c : Char) : Bool :=
  c.isAlpha || c == '_'

/-- A character a word may go on with. -/
def isWordPart (c : Char) : Bool :=
  c.isAlphanum || c == '_'

/-- The longest word at the front of a text. -/
def word (cs : List Char) : Piece :=
  ⟨some (Token.ofWord (String.ofList (cs.takeWhile isWordPart))),
    cs.takeWhile isWordPart, cs.dropWhile isWordPart⟩

/-! ### Pieces -/

/-- A piece that is a single character. -/
def single (token? : Option Token) (c : Char) (cs : List Char) : Piece :=
  ⟨token?, [c], cs⟩

/-- The piece that begins with `c` and is no comment. -/
def scanOther (c : Char) (cs : List Char) : Option Piece :=
  if isBlank c then some (single none c cs)
  else if c = '"' || c = '\'' then
    (quoted c cs).map fun q =>
      ⟨some (.str (String.ofList q.content)), c :: q.text, q.rest⟩
  else if c.isDigit then some (number (c :: cs))
  else match Punct.ofChar? c with
    | some p => some (single (some (.punct p)) c cs)
    | none => if isWordStart c then some (word (c :: cs)) else none

/-- The piece at the front of the text `c :: cs`, or nothing where none begins. -/
def scan : Char → List Char → Option Piece
  | '/', '/' :: cs => some (lineComment ('/' :: '/' :: cs))
  | '/', '*' :: cs =>
    (closeComment cs).map fun (text, rest) => ⟨none, '/' :: '*' :: text, rest⟩
  | c, cs => scanOther c cs

/-! ### No piece loses a character -/

theorem closeComment_append {cs text rest : List Char} (h : closeComment cs = some (text, rest)) :
    text ++ rest = cs := by
  fun_induction closeComment cs generalizing text rest with
  | case1 => simp at h
  | case2 cs => grind
  | case3 c cs _ ih =>
    simp only [Option.map_eq_some_iff, Prod.exists] at h
    obtain ⟨t, r, h, he⟩ := h
    simp only [Prod.mk.injEq] at he
    obtain ⟨rfl, rfl⟩ := he
    simp [ih h]

theorem quoted_append {quote : Char} {cs : List Char} {q : Quoted} (h : quoted quote cs = some q) :
    q.text ++ q.rest = cs := by
  fun_induction quoted quote cs generalizing q with
  | case1 => simp at h
  | case2 => simp at h
  | case3 cs _ => grind
  | case4 => simp at h
  | case5 _ _ e cs ih =>
    obtain ⟨r, hr, rfl⟩ := Option.map_eq_some_iff.mp h
    simp [ih hr]
  | case6 c cs _ _ _ ih =>
    obtain ⟨r, hr, rfl⟩ := Option.map_eq_some_iff.mp h
    simp [ih hr]

theorem fraction_append (cs : List Char) : (fraction cs).1 ++ (fraction cs).2 = cs := by
  unfold fraction
  split
  · split
    · simp [List.takeWhile_append_dropWhile]
    · rfl
  · rfl

theorem sign_append (cs : List Char) : (sign cs).1 ++ (sign cs).2 = cs := by
  unfold sign
  split <;> rfl

theorem exponent_append (cs : List Char) : (exponent cs).1 ++ (exponent cs).2 = cs := by
  unfold exponent
  split
  · rfl
  · split
    · simp [List.append_assoc, List.takeWhile_append_dropWhile, sign_append]
    · rfl

theorem decimal_append (cs : List Char) : (decimal cs).text ++ (decimal cs).rest = cs := by
  simp only [decimal, List.append_assoc, exponent_append, fraction_append,
    List.takeWhile_append_dropWhile]

theorem number_append (cs : List Char) : (number cs).text ++ (number cs).rest = cs := by
  unfold number
  split
  · split
    · simp [List.takeWhile_append_dropWhile]
    · exact decimal_append _
  · exact decimal_append _

theorem word_append (cs : List Char) : (word cs).text ++ (word cs).rest = cs :=
  List.takeWhile_append_dropWhile

theorem scanOther_append {c : Char} {cs : List Char} {piece : Piece}
    (h : scanOther c cs = some piece) : piece.text ++ piece.rest = c :: cs := by
  unfold scanOther at h
  split at h
  · obtain rfl := Option.some.inj h
    rfl
  split at h
  · obtain ⟨q, hq, rfl⟩ := Option.map_eq_some_iff.mp h
    simp [quoted_append hq]
  split at h
  · obtain rfl := Option.some.inj h
    exact number_append _
  split at h
  · obtain rfl := Option.some.inj h
    rfl
  split at h
  · obtain rfl := Option.some.inj h
    exact word_append _
  · simp at h

/-- A piece and the text after it are the whole text. -/
theorem scan_append {c : Char} {cs : List Char} {piece : Piece} (h : scan c cs = some piece) :
    piece.text ++ piece.rest = c :: cs := by
  unfold scan at h
  split at h
  · obtain rfl := Option.some.inj h
    exact List.takeWhile_append_dropWhile
  · obtain ⟨⟨text, rest⟩, hc, rfl⟩ := Option.map_eq_some_iff.mp h
    simp [closeComment_append hc]
  · exact scanOther_append h

/-! ### Every piece has a character -/

theorem number_text_ne_nil {c : Char} (cs : List Char) (h : c.isDigit = true) :
    (number (c :: cs)).text ≠ [] := by
  unfold number
  split
  · split <;> simp [decimal]
  · simp [decimal, h]

theorem word_text_ne_nil {c : Char} (cs : List Char) (h : isWordStart c = true) :
    (word (c :: cs)).text ≠ [] := by
  have hpart : isWordPart c = true := by
    simp only [isWordStart, isWordPart, Char.isAlphanum, Bool.or_eq_true] at h ⊢
    exact h.elim (fun h => .inl (.inl h)) .inr
  simp [word, hpart]

theorem scanOther_text_ne_nil {c : Char} {cs : List Char} {piece : Piece}
    (h : scanOther c cs = some piece) : piece.text ≠ [] := by
  unfold scanOther at h
  split at h
  · obtain rfl := Option.some.inj h
    simp [single]
  split at h
  · obtain ⟨q, hq, rfl⟩ := Option.map_eq_some_iff.mp h
    simp
  split at h
  · obtain rfl := Option.some.inj h
    exact number_text_ne_nil cs ‹_›
  split at h
  · obtain rfl := Option.some.inj h
    simp [single]
  split at h
  · obtain rfl := Option.some.inj h
    exact word_text_ne_nil cs ‹_›
  · simp at h

theorem scan_text_ne_nil {c : Char} {cs : List Char} {piece : Piece}
    (h : scan c cs = some piece) : piece.text ≠ [] := by
  unfold scan at h
  split at h
  · obtain rfl := Option.some.inj h
    simp [lineComment]
  · obtain ⟨⟨text, rest⟩, hc, rfl⟩ := Option.map_eq_some_iff.mp h
    simp
  · exact scanOther_text_ne_nil h

theorem scan_shorter {c : Char} {cs : List Char} {piece : Piece} (h : scan c cs = some piece) :
    piece.rest.length < (c :: cs).length := by
  have hpos := List.length_pos_iff.mpr (scan_text_ne_nil h)
  rw [← scan_append h, List.length_append]
  omega

/-! ### The whole text -/

/-- The tokens a piece beginning at `p` contributes: its own, if it is a lexeme. -/
def Piece.located (piece : Piece) (p : Position) : List Located :=
  piece.token?.toList.map (⟨·, p⟩)

/-- The tokens of a text that begins at the place `p`, closed by the end of input. -/
def lexFrom (p : Position) : List Char → Except Unlexable (List Located)
  | [] => .ok [⟨.eof, p⟩]
  | c :: cs =>
    match _h : scan c cs with
    | none => .error ⟨p, c⟩
    | some piece => do
      let later ← lexFrom (p.after piece.text) piece.rest
      return piece.located p ++ later
termination_by cs => cs.length
decreasing_by exact scan_shorter ‹_›

end Lexer

/-- The tokens of a text, in order, the last of them the end of input. -/
def lex (text : String) : Except Unlexable (List Located) :=
  Lexer.lexFrom .start text.toList

end Schemata
