/-
How a text is written.

A text consists of lexemes, each a way of writing a token, and of trivia between them.
`Written` and `Trivia` say so without scanning anything: they relate the characters of a
piece to the text behind it, because a piece is as long as it can be and only what comes
next can tell that it has ended.  What comes next is looked at a few characters deep at
most, one class of characters for each, and that is all `ahead` asks for.

Which characters make a word, what a digit is worth and what an escape stands for is said
here once more, in lists of characters, so that nothing of the lexer's own is needed to say
what it ought to do.
-/
import Mathlib.Data.List.Infix
import Mathlib.Data.Nat.Digits.Defs
import Schemata.Token.Lexer

namespace Schemata.Lexer

open Schemata.Text

/-! ### Characters -/

/-- A character a word may begin with: `[A-Za-z_]`. -/
def beginsWord (c : Char) : Bool :=
  ('A' ≤ c && c ≤ 'Z') || ('a' ≤ c && c ≤ 'z') || c == '_'

/-- A character a word may go on with: `[A-Za-z0-9_]`. -/
def inWord (c : Char) : Bool :=
  beginsWord c || ('0' ≤ c && c ≤ '9')

/-- A digit to the base sixteen. -/
def inHex (c : Char) : Bool :=
  "0123456789abcdefABCDEF".toList.contains c

/-- The letters that follow the zero of a number to the base sixteen. -/
def isHexMark (c : Char) : Bool := c == 'x' || c == 'X'

/-- The letters an exponent begins with. -/
def isExponentMark (c : Char) : Bool := c == 'e' || c == 'E'

/-- The signs an exponent may have. -/
def isSign (c : Char) : Bool := c == '+' || c == '-'

/-- What a digit is worth: its place among the digits, in either case. -/
def worth (c : Char) : Nat := "0123456789abcdef".toList.idxOf c.toLower

/-- What a run of digits is worth, the last of which has the least weight. -/
def numeral (base : Nat) (digits : List Char) : Nat :=
  Nat.ofDigits base (digits.reverse.map worth)

/-- The integer stands for the value, as the largest one does for every value beyond. -/
def Holds (n : Int64) (value : Nat) : Prop := n.toInt = (min value (2 ^ 63 - 1) : Nat)

/-- What a backslash and the character after it stand for, where that is not the two of
them. -/
def escapes : List (Char × Char) :=
  [('"', '"'), ('\'', '\''), ('\\', '\\'), ('n', '\n'), ('t', '\t')]

/-! ### Looking ahead -/

/-- The text goes on with a character of each class, in order. -/
def ahead : List (Char → Bool) → List Char → Bool
  | [], _ => true
  | _ :: _, [] => false
  | p :: ps, c :: cs => p c && ahead ps cs

@[simp] theorem ahead_nil (cs : List Char) : ahead [] cs = true := by
  cases cs <;> rfl

@[simp] theorem ahead_end (p : Char → Bool) (ps : List (Char → Bool)) :
    ahead (p :: ps) [] = false := rfl

@[simp] theorem ahead_cons (p : Char → Bool) (ps : List (Char → Bool)) (c : Char)
    (cs : List Char) : ahead (p :: ps) (c :: cs) = (p c && ahead ps cs) := rfl

theorem ahead_cons_iff {p : Char → Bool} {ps : List (Char → Bool)} {cs : List Char} :
    ahead (p :: ps) cs = true ↔ ∃ c rest, cs = c :: rest ∧ p c = true ∧ ahead ps rest = true := by
  cases cs <;> simp

/-- A fraction comes next. -/
def fractionAhead (cs : List Char) : Bool := ahead [(· == '.'), Char.isDigit] cs

/-- An exponent comes next. -/
def exponentAhead (cs : List Char) : Bool :=
  ahead [isExponentMark, Char.isDigit] cs || ahead [isExponentMark, isSign, Char.isDigit] cs

/-! ### Words and numbers -/

/-- One character of the class or more. -/
def Run (p : Char → Bool) (cs : List Char) : Prop := cs ≠ [] ∧ ∀ c ∈ cs, p c = true

/-- A word: `[A-Za-z_][A-Za-z0-9_]*`. -/
def IsWord (cs : List Char) : Prop :=
  ∃ c rest, cs = c :: rest ∧ beginsWord c = true ∧ ∀ d ∈ rest, inWord d = true

/-- A word that is not reserved. -/
structure IsIdentifier (w : String) : Prop where
  word : IsWord w.toList
  free : ∀ k : Keyword, k.word ≠ w

/-- A point and digits. -/
inductive Fraction : List Char → Prop
  | mk {digits : List Char} (h : Run Char.isDigit digits) : Fraction ('.' :: digits)

/-- A letter, perhaps a sign, and digits. -/
inductive Exponent : List Char → Prop
  | plain {mark : Char} {digits : List Char} (hmark : isExponentMark mark = true)
      (h : Run Char.isDigit digits) : Exponent (mark :: digits)
  | signed {mark sign : Char} {digits : List Char} (hmark : isExponentMark mark = true)
      (hsign : isSign sign = true) (h : Run Char.isDigit digits) :
      Exponent (mark :: sign :: digits)

/-- Digits with what they have of a fraction and an exponent, all there is of them. -/
structure Decimal (whole fraction exponent rest : List Char) : Prop where
  whole : Run Char.isDigit whole
  fraction : fraction = [] ∧ fractionAhead (exponent ++ rest) = false ∨ Fraction fraction
  exponent : exponent = [] ∧ exponentAhead rest = false ∨ Exponent exponent
  ends : ahead [Char.isDigit] rest = false

/-! ### Strings -/

/-- What the inside of a string is made of: a character that stands for itself, or a
backslash and any character behind it. -/
inductive StringPart where
  | plain (c : Char)
  | escape (c : Char)
deriving DecidableEq, Repr

namespace StringPart

/-- The part as it is written. -/
def text : StringPart → List Char
  | plain c => [c]
  | escape c => ['\\', c]

/-- What it stands for. -/
def value : StringPart → List Char
  | plain c => [c]
  | escape c => (escapes.lookup c).elim ['\\', c] ([·])

/-- The part can stand between these quotes: a character that stands for itself closes no
string and begins no escape, and ends no line. -/
def FitsIn (quote : Char) : StringPart → Prop
  | plain c => c ≠ quote ∧ c ≠ '\\' ∧ c ≠ '\n'
  | escape _ => True

end StringPart

/-! ### Lexemes and trivia -/

/-- The token is written with the characters `text` where `rest` stands behind them. -/
inductive Written : Token → (text rest : List Char) → Prop
  /-- The longest word there is, and it is reserved. -/
  | keyword {rest : List Char} (k : Keyword) (hends : ahead [inWord] rest = false) :
      Written (.keyword k) k.word.toList rest
  /-- The longest word there is, and it is not reserved. -/
  | ident {w : String} {rest : List Char} (hname : IsIdentifier w)
      (hends : ahead [inWord] rest = false) : Written (.ident w) w.toList rest
  /-- Digits, with neither a fraction nor an exponent behind them. -/
  | int {n : Int64} {digits rest : List Char} (h : Decimal digits [] [] rest)
      (hzero : digits = ['0'] → ahead [isHexMark, inHex] rest = false)
      (hvalue : Holds n (numeral 10 digits)) : Written (.int n) digits rest
  /-- A zero, its mark and all the digits to the base sixteen that follow. -/
  | hex {n : Int64} {mark : Char} {digits rest : List Char} (hmark : isHexMark mark = true)
      (hdigits : Run inHex digits) (hends : ahead [inHex] rest = false)
      (hvalue : Holds n (numeral 16 digits)) : Written (.int n) ('0' :: mark :: digits) rest
  /-- Digits with a fraction or an exponent. -/
  | float {whole fraction exponent rest : List Char}
      (h : Decimal whole fraction exponent rest) (htail : fraction ++ exponent ≠ []) :
      Written (.float (String.ofList (whole ++ (fraction ++ exponent))))
        (whole ++ (fraction ++ exponent)) rest
  /-- What stands between two quotes of one kind. -/
  | str {quote : Char} {parts : List StringPart} {rest : List Char}
      (hquote : quote = '"' ∨ quote = '\'') (hparts : ∀ part ∈ parts, part.FitsIn quote) :
      Written (.str (String.ofList (parts.flatMap StringPart.value)))
        (quote :: (parts.flatMap StringPart.text ++ [quote])) rest
  /-- A punctuation character. -/
  | punct {rest : List Char} (p : Punct) : Written (.punct p) [p.symbol] rest

/-- The characters `text` stand for no token where `rest` stands behind them. -/
inductive Trivia : (text rest : List Char) → Prop
  /-- A character of white space. -/
  | blank {c : Char} {rest : List Char} (h : isBlank c = true) : Trivia [c] rest
  /-- A comment up to the end of its line, or of the text. -/
  | line {body rest : List Char} (hbody : '\n' ∉ body)
      (hends : ahead [(· != '\n')] rest = false) : Trivia ('/' :: '/' :: body) rest
  /-- A comment up to the first place that closes it. -/
  | block {body rest : List Char} (hbody : ¬ ['*', '/'] <:+: body ++ ['*']) :
      Trivia ('/' :: '*' :: (body ++ ['*', '/'])) rest

/-- The piece is what its token is written with, or trivia if it has none. -/
def Piece.Fits (piece : Piece) : Prop :=
  match piece.token? with
  | some t => Written t piece.text piece.rest
  | none => Trivia piece.text piece.rest

/-! ### What the lexer goes by

Its classes of characters are those of words and digits, and what it makes of digits and
escapes is what they stand for. -/

theorem isWordStart_eq : isWordStart = beginsWord := by
  funext c
  have hupper : c.isUpper = ('A' ≤ c && c ≤ 'Z') := Bool.decide_and ..
  have hlower : c.isLower = ('a' ≤ c && c ≤ 'z') := rfl
  show (c.isUpper || c.isLower || c == '_') = beginsWord c
  rw [hupper, hlower, beginsWord]

theorem isWordPart_eq : isWordPart = inWord := by
  funext c
  have hstart : (c.isAlpha || c == '_') = beginsWord c := congrFun isWordStart_eq c
  have hdigit : c.isDigit = ('0' ≤ c && c ≤ '9') := rfl
  rw [isWordPart, Char.isAlphanum, inWord, ← hstart, ← hdigit, Bool.or_right_comm]

/-- The digits to the base sixteen, by the numbers of their characters. -/
theorem isHexDigit_iff {c : Char} : isHexDigit c = true ↔ (48 ≤ c.toNat ∧ c.toNat ≤ 57) ∨
    (97 ≤ c.toNat ∧ c.toNat ≤ 102) ∨ (65 ≤ c.toNat ∧ c.toNat ≤ 70) := by
  simp only [isHexDigit, Char.isDigit, Bool.or_eq_true, Bool.and_eq_true, decide_eq_true_eq,
    Char.le_def, UInt32.le_iff_toNat_le, or_assoc]
  rfl

theorem isHexDigit_eq : isHexDigit = inHex := by
  have hrange : ∀ n < 103, 48 ≤ n ∧ n ≤ 57 ∨ 97 ≤ n ∧ n ≤ 102 ∨ 65 ≤ n ∧ n ≤ 70 →
      inHex (Char.ofNat n) = true := by decide
  have hlist : "0123456789abcdefABCDEF".toList.all isHexDigit = true := by decide
  funext c
  rw [Bool.eq_iff_iff]
  constructor
  · intro h
    have hc := isHexDigit_iff.mp h
    have hin := hrange c.toNat (by omega) hc
    rwa [Char.ofNat_toNat] at hin
  · exact fun h => List.all_eq_true.mp hlist c (List.contains_iff_mem.mp h)

theorem digitValue_eq_worth {c : Char} (h : inHex c = true) : digitValue c = worth c := by
  have hlist : "0123456789abcdefABCDEF".toList.all (fun c => digitValue c = worth c) = true := by
    decide
  simpa using List.all_eq_true.mp hlist c (List.contains_iff_mem.mp h)

theorem inHex_of_isDigit {c : Char} (h : c.isDigit = true) : inHex c = true := by
  rw [← isHexDigit_eq, isHexDigit, h]; rfl

/-- The digits are added up from the front. -/
theorem valueOf_eq_numeral (base : Nat) {digits : List Char} (h : ∀ c ∈ digits, inHex c = true) :
    valueOf base digits = numeral base digits := by
  rw [numeral, Nat.ofDigits_eq_foldr, List.foldr_map, List.foldr_reverse]
  refine List.foldl_ext _ _ _ fun n c hc => ?_
  rw [digitValue_eq_worth (h c hc), Nat.add_comm, Nat.mul_comm]
  rfl

/-- An integer token stands for the value it is made of. -/
theorem intToken_eq_iff {n : Int64} {value : Nat} : intToken value = .int n ↔ Holds n value := by
  have hheld : (if value < 0x8000000000000000 then Int64.ofNat value else .maxValue).toInt =
      (min value (2 ^ 63 - 1) : Nat) := by
    split
    · rename_i hlt
      rw [Int64.toInt_ofNat_of_lt hlt, min_eq_left (by omega)]
    · rename_i hge
      rw [Int64.toInt_maxValue, min_eq_right (by omega)]
      rfl
  rw [intToken, Token.int.injEq, ← Int64.toInt_inj, hheld, Holds, eq_comm]

theorem Holds.nonneg {n : Int64} {value : Nat} (h : Holds n value) : 0 ≤ n.toInt := by
  rw [h]
  exact Int.natCast_nonneg _

/-- The token of a run of digits stands for what they are worth. -/
theorem intToken_valueOf_eq_iff (base : Nat) {digits : List Char} {n : Int64}
    (h : ∀ c ∈ digits, inHex c = true) :
    intToken (valueOf base digits) = .int n ↔ Holds n (numeral base digits) := by
  rw [valueOf_eq_numeral base h, intToken_eq_iff]

theorem StringPart.value_escape (c : Char) : (escape c).value = unescape c := by
  unfold unescape
  split
  case h_6 hdouble hsingle hback hline htab =>
    have hnone : escapes.lookup c = none := by
      rw [List.lookup_eq_none_iff]
      simpa [escapes] using ⟨hdouble, hsingle, hback, hline, htab⟩
    rw [value, hnone]
    rfl
  all_goals rfl
end Schemata.Lexer
