/-
What an integer literal is worth.

A literal may have any number of digits, to the base ten or to the base sixteen, and
`Literal` gives it the value that its digits have in that base.  A token can not hold every
value: what is beyond the largest integer of a token counts as that integer.  So a token says
what its literal is worth only if it is not the largest, and a value of thirty-two bits is
never near that.
-/
import Schemata.Proofs.Token.Segments

namespace Schemata

open Lexer Text

namespace Lexer

/-- The characters write an integer literal of the value: digits, or a zero, its mark and
digits to the base sixteen. -/
inductive Literal : List Char → Nat → Prop
  | decimal {digits : List Char} (h : Run Char.isDigit digits) :
      Literal digits (numeral 10 digits)
  | hex {mark : Char} {digits : List Char} (hmark : isHexMark mark = true)
      (h : Run inHex digits) : Literal ('0' :: mark :: digits) (numeral 16 digits)

/-- An integer token is written with a literal, and holds its value as far as it can. -/
theorem Written.exists_literal {t : Token} {n : Int64} {text rest : List Char}
    (h : Written t text rest) (ht : t = .int n) : ∃ v, Literal text v ∧ Holds n v := by
  cases h with
  | int h hzero hvalue =>
      cases ht
      exact ⟨numeral 10 text, .decimal h.whole, hvalue⟩
  | hex hmark hdigits hends hvalue =>
      cases ht
      exact ⟨_, .hex hmark hdigits, hvalue⟩
  | _ => cases ht

end Lexer

/-- The token stands in the text where an integer literal of the value is written, and holds
that value as far as it can. -/
def LiteralAt (text : String) (t : Located) (value : Nat) : Prop :=
  ∃ before literal after n, text.toList = before ++ (literal ++ after) ∧
    t.place = .behind before ∧ Literal literal value ∧ Written t.token literal after ∧
    t.token = .int n ∧ Holds n value

section

variable {text : String} {tokens : List Located} {t : Located}

/-- An integer token of a text stands for a literal of the text. -/
theorem exists_literalAt {n : Int64} (h : lex text = .ok tokens) (ht : t ∈ tokens)
    (hint : t.token = .int n) : ∃ value, LiteralAt text t value := by
  obtain ⟨before, literal, after, htext, hplace, hwritten⟩ :=
    exists_written_of_lex h ht (by rw [hint]; nofun)
  obtain ⟨value, hliteral, hvalue⟩ := hwritten.exists_literal hint
  exact ⟨value, before, literal, after, n, htext, hplace, hliteral, hwritten, hint, hvalue⟩

theorem LiteralAt.exists_int {value : Nat} (h : LiteralAt text t value) :
    ∃ n, t.token = .int n ∧ Holds n value := by
  obtain ⟨_, _, _, n, -, -, -, -, htoken, hvalue⟩ := h
  exact ⟨n, htoken, hvalue⟩

end

/-- Sixty-four bits hold the negation of an integer that is not below zero. -/
theorem toInt_neg_of_nonneg {n : Int64} (h : 0 ≤ n.toInt) : (-n).toInt = -n.toInt := by
  have hhigh := n.toInt_lt
  rw [Int64.toInt_neg]
  exact Int.bmod_eq_of_le (by omega) (by omega)

end Schemata
