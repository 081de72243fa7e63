/-
What lexing yields.

A text is cut into tokens that can stand anywhere in it, and behind them comes the end of
input.  So the end of input is the last token and no other one, and since the sign of a
number is a token of its own, no integer is below zero.
-/
import Schemata.Proofs.Fallible
import Schemata.Token.Lexer

namespace Schemata

/-- A token that a text can have before its end: not the end of input, and no integer below
zero. -/
def Token.IsLexeme : Token → Prop
  | .eof => False
  | .int n => 0 ≤ n
  | _ => True

/-- The list has the form of a text's: tokens that a text can have, and then the end of
input. -/
def Lexed (ts : List Located) : Prop :=
  ∃ body last, ts = body ++ [last] ∧ last.token = .eof ∧ ∀ t ∈ body, t.token.IsLexeme

theorem Token.IsLexeme.ne_eof {t : Token} (h : t.IsLexeme) : t ≠ .eof := by
  rintro rfl
  exact h

namespace Lexer

theorem isLexeme_intToken (value : Nat) : (intToken value).IsLexeme := by
  show 0 ≤ (if value < 0x8000000000000000 then Int64.ofNat value else .maxValue)
  split
  · rename_i hlt
    rw [Int64.le_iff_toInt_le, Int64.toInt_ofNat_of_lt hlt]
    exact Int.natCast_nonneg value
  · decide

theorem isLexeme_number (cs : List Char) {t : Token} (h : (number cs).token? = some t) :
    t.IsLexeme := by
  have hdecimal : ∀ cs, (decimal cs).token? = some t → t.IsLexeme := by
    intro cs h
    obtain rfl := Option.some.inj h
    unfold decimalToken
    split
    · exact isLexeme_intToken _
    · trivial
  unfold number at h
  split at h
  · split at h
    · obtain rfl := Option.some.inj h
      exact isLexeme_intToken _
    · exact hdecimal _ h
  · exact hdecimal _ h

/-- Every piece of a text is a token that a text can have, or none. -/
theorem isLexeme_scan {c : Char} {cs : List Char} {piece : Piece} {t : Token}
    (h : scan c cs = some piece) (ht : piece.token? = some t) : t.IsLexeme := by
  have hother : scanOther c cs = some piece → t.IsLexeme := by
    intro h
    unfold scanOther at h
    split at h
    · obtain rfl := Option.some.inj h
      cases ht
    split at h
    · obtain ⟨q, -, rfl⟩ := Option.map_eq_some_iff.mp h
      obtain rfl := Option.some.inj ht
      trivial
    split at h
    · obtain rfl := Option.some.inj h
      exact isLexeme_number _ ht
    split at h
    · obtain rfl := Option.some.inj h
      obtain rfl := Option.some.inj ht
      trivial
    split at h
    · obtain rfl := Option.some.inj h
      obtain rfl := Option.some.inj ht
      unfold Token.ofWord
      split <;> trivial
    · cases h
  unfold scan at h
  split at h
  · obtain rfl := Option.some.inj h
    cases ht
  · obtain ⟨_, -, rfl⟩ := Option.map_eq_some_iff.mp h
    cases ht
  · exact hother h

theorem lexed_lexFrom {p : Text.Position} {cs : List Char} {ts : List Located}
    (h : lexFrom p cs = .ok ts) : Lexed ts := by
  fun_induction lexFrom p cs generalizing ts with
  | case1 p =>
      cases h
      exact ⟨[], ⟨.eof, p⟩, rfl, rfl, by simp⟩
  | case2 => cases h
  | case3 p c cs piece hscan ih =>
      obtain ⟨later, hlater, h⟩ := Fallible.bind_eq_ok.mp h
      cases h
      obtain ⟨body, last, rfl, hlast, hbody⟩ := ih hlater
      refine ⟨piece.located p ++ body, last, (List.append_assoc ..).symm, hlast, ?_⟩
      intro t ht
      rcases List.mem_append.mp ht with ht | ht
      · obtain ⟨token, htoken, rfl⟩ := List.mem_map.mp ht
        exact isLexeme_scan hscan (Option.mem_toList.mp htoken)
      · exact hbody t ht

end Lexer

/-- **Lexing yields tokens that a text can have, and then the end of input.** -/
theorem lexed_lex {text : String} {ts : List Located} (h : lex text = .ok ts) : Lexed ts :=
  Lexer.lexed_lexFrom h

end Schemata
