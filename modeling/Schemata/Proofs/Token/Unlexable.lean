/-
Where lexing fails.

A text is lexed piece by piece from its front, so it fails at the first place where no piece
begins.  What stands before that place has been cut into segments already, each with the
text behind it in view; it is lexed by itself too, because a text that stops is no more to
look into than one that goes on with a character nothing looks ahead for.  And there are
three reasons why no piece begins: a string that does not close on its line, a comment that
does not close at all, and a character that begins nothing.
-/
import Schemata.Proofs.Token.Layout

namespace Schemata

/-! ### Places told apart -/

namespace Text.Position

/-- Along a line the column counts the characters. -/
theorem after_of_same_line {p : Position} {cs : List Char} (h : '\n' ∉ cs) :
    p.after cs = ⟨p.line, p.col + cs.length⟩ := by
  induction cs generalizing p with
  | nil => rfl
  | cons c cs ih =>
      obtain ⟨hc, hcs⟩ := not_or.mp (mt List.mem_cons.mpr h)
      rw [after_cons, ih hcs, step, if_neg fun heq => hc heq.symm]
      simp only [List.length_cons, Nat.add_assoc, Nat.add_comm 1]

/-- No stretch of a text leads back to where it began. -/
theorem eq_nil_of_after_eq_self {p : Position} {cs : List Char} (h : p.after cs = p) :
    cs = [] := by
  have hline := congrArg line h
  rw [line_after] at hline
  have hnone : '\n' ∉ cs := List.count_eq_zero.mp (by omega)
  have hcol := congrArg col h
  rw [after_of_same_line hnone] at hcol
  exact List.length_eq_zero_iff.mp (by simpa using hcol)

/-- A place is behind one part of a text only. -/
theorem behind_inj {before part text : List Char} (hbefore : before <+: text)
    (hpart : part <+: text) (h : behind part = behind before) : part = before := by
  rcases List.prefix_or_prefix_of_prefix hbefore hpart with ⟨more, rfl⟩ | ⟨more, rfl⟩
  · obtain rfl := eq_nil_of_after_eq_self ((after_behind before more).trans h)
    exact List.append_nil _
  · obtain rfl := eq_nil_of_after_eq_self ((after_behind part more).trans h.symm)
    exact (List.append_nil _).symm

end Text.Position

namespace Lexer

open Text

/-! ### What begins no piece -/

/-- The inside of a string breaks off: the text ends, perhaps behind a backslash, or the line
does. -/
def BreaksOff (rest : List Char) : Prop :=
  rest = [] ∨ rest = ['\\'] ∨ ∃ more, rest = '\n' :: more

/-- A character that is no white space, no quote and no punctuation, and that no number and no
word begins with. -/
structure Stray (c : Char) : Prop where
  blank : isBlank c = false
  quote : c ≠ '"' ∧ c ≠ '\''
  digit : c.isDigit = false
  punct : ∀ p : Punct, p.symbol ≠ c
  letter : c.isAlpha = false
  underscore : c ≠ '_'

/-- No piece begins with the character where `rest` stands behind it. -/
inductive Hopeless : (c : Char) → (rest : List Char) → Prop
  /-- The quote of a string that breaks off before it closes. -/
  | string {quote : Char} {parts : List StringPart} {rest : List Char}
      (hquote : quote = '"' ∨ quote = '\'') (hparts : ∀ part ∈ parts, part.FitsIn quote)
      (hends : BreaksOff rest) : Hopeless quote (parts.flatMap StringPart.text ++ rest)
  /-- The slash of a comment that is never closed. -/
  | comment {body : List Char} (h : ¬ ['*', '/'] <:+: body) : Hopeless '/' ('*' :: body)
  /-- A character that begins nothing, and a slash is one unless it opens a comment. -/
  | stray {c : Char} {rest : List Char} (h : Stray c)
      (hopens : c = '/' → rest.head? ≠ some '/' ∧ rest.head? ≠ some '*') : Hopeless c rest

theorem closeComment_eq_none_iff {cs : List Char} :
    closeComment cs = none ↔ ¬ ['*', '/'] <:+: cs := by
  fun_induction closeComment cs with
  | case1 => simp
  | case2 cs => simpa using (List.prefix_append ['*', '/'] cs).isInfix
  | case3 c cs hopen ih =>
      have hfront : ¬ ['*', '/'] <+: c :: cs := by
        rintro ⟨more, hmore⟩
        obtain ⟨rfl, rfl⟩ := List.cons.inj hmore
        exact hopen more rfl rfl
      rw [Option.map_eq_none_iff, ih, List.infix_cons_iff, not_or, and_iff_right hfront]

theorem exists_parts_of_quoted_eq_none {quote : Char} {cs : List Char}
    (h : quoted quote cs = none) : ∃ (parts : List StringPart) (rest : List Char),
      (∀ part ∈ parts, part.FitsIn quote) ∧ BreaksOff rest ∧
      cs = parts.flatMap StringPart.text ++ rest := by
  fun_induction quoted quote cs with
  | case1 => exact ⟨[], [], by simp, .inl rfl, rfl⟩
  | case2 cs => exact ⟨[], '\n' :: cs, by simp, .inr (.inr ⟨cs, rfl⟩), rfl⟩
  | case3 => cases h
  | case4 => exact ⟨[], ['\\'], by simp, .inr (.inl rfl), rfl⟩
  | case5 e cs _ _ ih =>
      obtain ⟨parts, rest, hparts, hrest, rfl⟩ := ih (Option.map_eq_none_iff.mp h)
      exact ⟨.escape e :: parts, rest, List.forall_mem_cons.mpr ⟨trivial, hparts⟩, hrest, rfl⟩
  | case6 c cs hline hquote hescape ih =>
      obtain ⟨parts, rest, hparts, hrest, rfl⟩ := ih (Option.map_eq_none_iff.mp h)
      exact ⟨.plain c :: parts, rest,
        List.forall_mem_cons.mpr ⟨⟨hquote, hescape, hline⟩, hparts⟩, hrest, rfl⟩

theorem quoted_eq_none {quote : Char} (hquote : quote = '"' ∨ quote = '\'')
    {parts : List StringPart} {rest : List Char} (hparts : ∀ part ∈ parts, part.FitsIn quote)
    (hends : BreaksOff rest) : quoted quote (parts.flatMap StringPart.text ++ rest) = none := by
  have hback : '\\' ≠ quote := by rcases hquote with rfl | rfl <;> decide
  induction parts with
  | nil =>
      rw [List.flatMap_nil, List.nil_append, quoted.eq_def]
      rcases hends with rfl | rfl | ⟨more, rfl⟩
      · rfl
      · simp [hback]
      · simp
  | cons part parts ih =>
      obtain ⟨hpart, hrest⟩ := List.forall_mem_cons.mp hparts
      rw [List.flatMap_cons, List.append_assoc, quoted.eq_def]
      cases part with
      | plain c =>
          obtain ⟨hclose, hescape, hfeed⟩ := hpart
          simp [StringPart.text, hfeed, hclose, hescape, ih hrest]
      | escape c => simp [StringPart.text, hback, ih hrest]

theorem scanOther_eq_none_iff {c : Char} {cs : List Char} (hquote : c ≠ '"' ∧ c ≠ '\'') :
    scanOther c cs = none ↔ Stray c := by
  have hpunct : Punct.ofChar? c = none ↔ ∀ p : Punct, p.symbol ≠ c := by
    constructor
    · rintro h p rfl
      simp at h
    · intro h
      cases hp : Punct.ofChar? c with
      | none => rfl
      | some p => exact absurd (Punct.symbol_of_ofChar? hp) (h p)
  have hstart : isWordStart c = false ↔ c.isAlpha = false ∧ c ≠ '_' := by
    simp [isWordStart]
  constructor
  · intro h
    unfold scanOther at h
    split at h
    · cases h
    rename_i hblank
    split at h
    · rename_i hc
      exact absurd (by simpa using hc) (not_or.mpr hquote)
    split at h
    · cases h
    rename_i hdigit
    split at h
    · cases h
    rename_i hnone
    split at h
    · cases h
    rename_i hword
    obtain ⟨hletter, hunderscore⟩ := hstart.mp (by simpa using hword)
    exact ⟨by simpa using hblank, hquote, by simpa using hdigit, hpunct.mp hnone, hletter,
      hunderscore⟩
  · intro h
    simp [scanOther, h.blank, hquote, h.digit, hpunct.mpr h.punct,
      hstart.mpr ⟨h.letter, h.underscore⟩]

theorem scan_of_opens_nothing {c : Char} {cs : List Char}
    (h : c = '/' → cs.head? ≠ some '/' ∧ cs.head? ≠ some '*') : scan c cs = scanOther c cs := by
  refine scan.eq_3 c cs ?_ ?_
  · rintro more rfl rfl
    exact (h rfl).1 rfl
  · rintro more rfl rfl
    exact (h rfl).2 rfl

/-- **There are three reasons why no piece begins.** -/
theorem scan_eq_none_iff {c : Char} {cs : List Char} : scan c cs = none ↔ Hopeless c cs := by
  constructor
  · intro h
    by_cases hquote : c = '"' ∨ c = '\''
    · rw [scan_quote hquote, Option.map_eq_none_iff] at h
      obtain ⟨parts, rest, hparts, hends, rfl⟩ := exists_parts_of_quoted_eq_none h
      exact .string hquote hparts hends
    by_cases hopens : c = '/' → cs.head? ≠ some '/' ∧ cs.head? ≠ some '*'
    · rw [scan_of_opens_nothing hopens] at h
      exact .stray ((scanOther_eq_none_iff (not_or.mp hquote)).mp h) hopens
    · unfold scan at h
      split at h
      · cases h
      · exact .comment (closeComment_eq_none_iff.mp (Option.map_eq_none_iff.mp h))
      · rename_i hline hblock
        refine absurd (fun hc => ⟨fun hhead => ?_, fun hhead => ?_⟩) hopens
        · obtain ⟨more, rfl⟩ := List.head?_eq_some_iff.mp hhead
          exact hline more hc rfl
        · obtain ⟨more, rfl⟩ := List.head?_eq_some_iff.mp hhead
          exact hblock more hc rfl
  · rintro (⟨hquote, hparts, hends⟩ | h | ⟨h, hopens⟩)
    · rw [scan_quote hquote, quoted_eq_none hquote hparts hends]
      rfl
    · exact Option.map_eq_none_iff.mpr (closeComment_eq_none_iff.mpr h)
    · rw [scan_of_opens_nothing hopens, (scanOther_eq_none_iff h.quote).mpr h]

/-! ### What stands before -/

/-- A piece fits where the text breaks off behind it as well. -/
theorem Piece.Fits.breakOff {token? : Option Token} {text mid rest : List Char}
    (h : Piece.Fits ⟨token?, text, mid ++ rest⟩) : Piece.Fits ⟨token?, text, mid⟩ := by
  rw [← List.append_nil mid]
  cases token? with
  | some t => exact Written.insert unseen_nil h
  | none => exact Trivia.insert (fun _ _ => rfl) h

/-- Where lexing stops no piece begins, and what it has passed is cut into segments. -/
theorem exists_segmented_of_lexFrom_error {p : Position} {cs : List Char} {u : Unlexable}
    (h : lexFrom p cs = .error u) : ∃ ss after, Segmented ss ∧
      cs = textOf ss ++ u.char :: after ∧ u.place = p.after (textOf ss) ∧
      scan u.char after = none := by
  fun_induction lexFrom p cs with
  | case1 => cases h
  | case2 p c cs hscan =>
      cases h
      exact ⟨[], cs, trivial, rfl, rfl, hscan⟩
  | case3 p c cs piece hscan ih =>
      have hlater : lexFrom (p.after piece.text) piece.rest = .error u := by
        cases hlater : lexFrom (p.after piece.text) piece.rest with
        | ok later =>
            rw [hlater] at h
            cases h
        | error u' =>
            rw [hlater] at h
            exact h
      obtain ⟨ss, after, hss, hrest, hplace, hnone⟩ := ih hlater
      have hfits : Piece.Fits ⟨piece.token?, piece.text, piece.rest⟩ := fits_of_scan hscan
      rw [hrest] at hfits
      refine ⟨⟨piece.token?, piece.text⟩ :: ss, after, ⟨hfits.breakOff, hss⟩, ?_, ?_, hnone⟩
      · rw [← scan_append hscan, hrest, textOf_cons, List.append_assoc]
      · rw [hplace, textOf_cons, Position.after_append]

end Lexer

open Lexer Text

/-- **Lexing fails at the first character that begins no piece.**  The character named in the
error stands at the place named there, and nothing else in the text does; what comes before
it is lexed by itself; and it opens a string that breaks off or a comment that is never
closed, or it begins nothing. -/
theorem lex_fails_at_first_unlexable {text : String} {u : Unlexable} (h : lex text = .error u) :
    ∃ before after, text.toList = before ++ u.char :: after ∧ u.place = .behind before ∧
      (∀ part, part <+: text.toList → .behind part = u.place → part = before) ∧
      (∃ tokens, lex (String.ofList before) = .ok tokens) ∧ Hopeless u.char after := by
  obtain ⟨ss, after, hss, htext, hplace, hnone⟩ := exists_segmented_of_lexFrom_error h
  have hbehind : u.place = .behind (textOf ss) := by
    rw [hplace]
    exact Position.after_behind [] (textOf ss)
  have hbefore : textOf ss <+: text.toList := ⟨u.char :: after, htext.symm⟩
  refine ⟨textOf ss, after, htext, hbehind, fun part hpart hplace => ?_, ?_,
    scan_eq_none_iff.mp hnone⟩
  · exact Position.behind_inj hbefore hpart (hplace.trans hbehind)
  · exact ⟨_, lex_eq_ok_iff.mpr ⟨ss, hss, by simp, rfl⟩⟩

/-- A text of two lines, with comments, a number and strings before a quote whose string meets
the end of its line. -/
def unclosed : String := "enum /* ' */ 0x1F // \"\n\"\\\"\" 1.5 'a\\\nb\n' \"c\""

theorem lex_fails_at_first_unlexable_unclosed :
    lex unclosed = .error ⟨⟨2, 10⟩, '\''⟩ ∧
    ∃ before after, unclosed.toList = before ++ '\'' :: after ∧
      (⟨2, 10⟩ : Position) = .behind before ∧
      (∀ part, part <+: unclosed.toList → Position.behind part = ⟨2, 10⟩ → part = before) ∧
      (∃ tokens, lex (String.ofList before) = .ok tokens) ∧ Hopeless '\'' after := by
  have hlex : lex unclosed = .error ⟨⟨2, 10⟩, '\''⟩ := by decide +kernel
  exact ⟨hlex, lex_fails_at_first_unlexable hlex⟩

end Schemata
