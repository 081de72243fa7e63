/-
A text is cut into segments.

Lexing is the one way to cut a text into lexemes and trivia.  A text is lexed exactly if it
can be cut at all, there is never a second way to cut it, and the tokens are what the
lexemes are written for, each with the place of its first character.  Places are counted
here from the text before them and not carried along, which is what `behind` is for.
-/
import Schemata.Proofs.Fallible
import Schemata.Proofs.Token.Scan

namespace Schemata

namespace Text.Position

/-- The place behind a text: on the line after as many as it has line feeds, in the column
after as many characters as it has since the last of them. -/
def behind (cs : List Char) : Position :=
  ⟨1 + cs.count '\n', 1 + (cs.reverse.takeWhile (· != '\n')).length⟩

theorem step_behind (before : List Char) (c : Char) :
    (behind before).step c = behind (before ++ [c]) := by
  by_cases h : c = '\n'
  · simp [behind, step, h, Nat.add_assoc]
  · simp [behind, step, h, Nat.add_assoc]

theorem after_behind (before text : List Char) :
    (behind before).after text = behind (before ++ text) := by
  induction text generalizing before with
  | nil => simp
  | cons c cs ih => rw [after_cons, step_behind, ih, List.append_assoc, List.singleton_append]

/-- A place is no farther from the first than the text before it is long. -/
theorem behind_le (cs : List Char) :
    (behind cs).line ≤ cs.length + 1 ∧ (behind cs).col ≤ cs.length + 1 := by
  have hline : cs.count '\n' ≤ cs.length := List.count_le_length
  have hcol := (List.takeWhile_sublist (· != '\n') (l := cs.reverse)).length_le
  rw [List.length_reverse] at hcol
  simp only [behind]
  omega

end Text.Position

namespace Lexer

open Text

/-- A stretch of a text, with the token it stands for if it is a lexeme. -/
@[ext] structure Segment where
  token? : Option Token
  text : List Char
deriving DecidableEq, Repr

/-- The segment can stand before `rest`. -/
def Segment.Fits (s : Segment) (rest : List Char) : Prop := Piece.Fits ⟨s.token?, s.text, rest⟩

/-- The text the segments make up. -/
def textOf (ss : List Segment) : List Char := ss.flatMap Segment.text

/-- Every segment can stand before those that follow it. -/
def Segmented : List Segment → Prop
  | [] => True
  | s :: ss => s.Fits (textOf ss) ∧ Segmented ss

/-- Segments stand before the rest of a text: each can stand before those that follow it and
the rest behind them. -/
def SegmentedBefore (rest : List Char) : List Segment → Prop
  | [] => True
  | s :: ss => s.Fits (textOf ss ++ rest) ∧ SegmentedBefore rest ss

/-- The tokens of segments that stand behind the text `before`, each with the place of its
first character. -/
def lexemes (before : List Char) : List Segment → List Located
  | [] => []
  | s :: ss => s.token?.toList.map (⟨·, .behind before⟩) ++ lexemes (before ++ s.text) ss

@[simp] theorem textOf_nil : textOf [] = [] := rfl

@[simp] theorem textOf_cons (s : Segment) (ss : List Segment) :
    textOf (s :: ss) = s.text ++ textOf ss := rfl

@[simp] theorem textOf_append (ss ss' : List Segment) :
    textOf (ss ++ ss') = textOf ss ++ textOf ss' := by
  simp [textOf]

/-- Lexing takes the piece at the front and goes on behind it. -/
theorem lexFrom_of_scan {p : Position} {c : Char} {cs : List Char} {piece : Piece}
    (h : scan c cs = some piece) : lexFrom p (c :: cs) = (do
      let later ← lexFrom (p.after piece.text) piece.rest
      return piece.located p ++ later) := by
  rw [lexFrom]
  split
  · rename_i hnone
    cases hnone.symm.trans h
  · rename_i found hfound
    cases hfound.symm.trans h
    rfl

/-- What is cut is lexed, and the rest is lexed behind it. -/
theorem lexFrom_of_segmentedBefore {ss : List Segment} {rest : List Char}
    (h : SegmentedBefore rest ss) (before : List Char) :
    lexFrom (.behind before) (textOf ss ++ rest) =
      (lexFrom (.behind (before ++ textOf ss)) rest).map (lexemes before ss ++ ·) := by
  induction ss generalizing before with
  | nil =>
      rw [textOf_nil, List.nil_append, List.append_nil]
      cases lexFrom (.behind before) rest <;> rfl
  | cons s ss ih =>
      obtain ⟨hfits, hrest⟩ := h
      obtain ⟨c, cs, htext, hscan⟩ := scan_of_fits hfits
      have hlater := ih hrest (before ++ s.text)
      rw [textOf_cons, List.append_assoc, show s.text ++ (textOf ss ++ rest) = c :: cs from htext,
        lexFrom_of_scan hscan, Position.after_behind, hlater, List.append_assoc]
      cases lexFrom (.behind (before ++ (s.text ++ textOf ss))) rest with
      | error u => rfl
      | ok later => exact congrArg Except.ok (List.append_assoc ..).symm

theorem Segmented.before_nil {ss : List Segment} (h : Segmented ss) : SegmentedBefore [] ss := by
  induction ss with
  | nil => trivial
  | cons s ss ih => exact ⟨by rw [List.append_nil]; exact h.1, ih h.2⟩

/-- What is cut is lexed. -/
theorem lexFrom_of_segmented {ss : List Segment} (h : Segmented ss) (before : List Char) :
    lexFrom (.behind before) (textOf ss) =
      .ok (lexemes before ss ++ [⟨.eof, .behind (before ++ textOf ss)⟩]) := by
  have hlex := lexFrom_of_segmentedBefore h.before_nil before
  rw [List.append_nil] at hlex
  rw [hlex, lexFrom]
  rfl

/-- What is lexed is cut. -/
theorem exists_segmented_of_lexFrom {p : Position} {cs : List Char} {ts : List Located}
    (h : lexFrom p cs = .ok ts) : ∃ ss, Segmented ss ∧ textOf ss = cs := by
  fun_induction lexFrom p cs generalizing ts with
  | case1 => exact ⟨[], trivial, rfl⟩
  | case2 => cases h
  | case3 p c cs piece hscan ih =>
      obtain ⟨later, hlater, -⟩ := Fallible.bind_eq_ok.mp h
      obtain ⟨ss, hss, hrest⟩ := ih hlater
      refine ⟨⟨piece.token?, piece.text⟩ :: ss, ⟨?_, hss⟩, ?_⟩
      · rw [hrest]
        exact fits_of_scan hscan
      · rw [textOf_cons, hrest]
        exact scan_append hscan

/-- A text is cut in one way only, since each segment is what the scanner takes. -/
theorem Segmented.unique {ss ss' : List Segment} (h : Segmented ss) (h' : Segmented ss')
    (htext : textOf ss = textOf ss') : ss = ss' := by
  induction ss generalizing ss' with
  | nil =>
      cases ss' with
      | nil => rfl
      | cons s' ss' =>
          obtain ⟨c, cs, heq, -⟩ := scan_of_fits h'.1
          cases htext.trans heq
  | cons s ss ih =>
      obtain ⟨c, cs, heq, hscan⟩ := scan_of_fits h.1
      cases ss' with
      | nil => cases htext.symm.trans heq
      | cons s' ss' =>
          obtain ⟨c', cs', heq', hscan'⟩ := scan_of_fits h'.1
          obtain ⟨rfl, rfl⟩ := List.cons.inj (heq.symm.trans (htext.trans heq'))
          obtain ⟨htoken, hown, hrest⟩ :=
            (Piece.mk.injEq ..).mp (Option.some.inj (hscan.symm.trans hscan'))
          rw [ih h.2 h'.2 hrest, show s = s' from Segment.ext htoken hown]

/-- A token of the lexemes stands where it is written. -/
theorem exists_written_at_of_mem_lexemes {ss : List Segment} (h : Segmented ss)
    {before : List Char} {t : Located} (ht : t ∈ lexemes before ss) :
    ∃ front text rest, before ++ textOf ss = front ++ (text ++ rest) ∧ t.place = .behind front ∧
      Written t.token text rest := by
  induction ss generalizing before with
  | nil => cases ht
  | cons s ss ih =>
      obtain ⟨hfits, hrest⟩ := h
      rcases List.mem_append.mp ht with ht | ht
      · obtain ⟨token, htoken, rfl⟩ := List.mem_map.mp ht
        rw [Segment.Fits, Option.mem_toList.mp htoken] at hfits
        exact ⟨before, s.text, textOf ss, rfl, rfl, hfits⟩
      · obtain ⟨front, text, rest, heq, hplace, hwritten⟩ := ih hrest ht
        exact ⟨front, text, rest, by rw [← heq, textOf_cons, List.append_assoc], hplace, hwritten⟩

/-- Every token of the lexemes is written with some of the text. -/
theorem exists_written_of_mem_lexemes {ss : List Segment} (h : Segmented ss)
    {before : List Char} {t : Located} (ht : t ∈ lexemes before ss) :
    ∃ text rest, Written t.token text rest := by
  obtain ⟨_, text, rest, -, -, hwritten⟩ := exists_written_at_of_mem_lexemes h ht
  exact ⟨text, rest, hwritten⟩

/-- The end of the text is not written. -/
theorem Written.ne_eof {t : Token} {text rest : List Char} (h : Written t text rest) :
    t ≠ .eof := by
  rintro rfl
  cases h

/-- The places of the tokens are those behind some part of the text. -/
theorem exists_place_of_mem_lexemes {ss : List Segment} {before : List Char} {t : Located}
    (ht : t ∈ lexemes before ss) :
    ∃ part, part <+: before ++ textOf ss ∧ t.place = .behind part := by
  induction ss generalizing before with
  | nil => cases ht
  | cons s ss ih =>
      rcases List.mem_append.mp ht with ht | ht
      · obtain ⟨token, -, rfl⟩ := List.mem_map.mp ht
        exact ⟨before, List.prefix_append _ _, rfl⟩
      · obtain ⟨part, hpart, hplace⟩ := ih ht
        exact ⟨part, by simpa using hpart, hplace⟩

end Lexer

open Lexer Text

/-- Lexing cuts the text: the tokens are those of the lexemes, in order and at their places,
and the end of the text stands behind the last character. -/
theorem lex_eq_ok_iff {text : String} {tokens : List Located} :
    lex text = .ok tokens ↔ ∃ ss, Segmented ss ∧ textOf ss = text.toList ∧
      tokens = lexemes [] ss ++ [⟨.eof, .behind text.toList⟩] := by
  constructor
  · intro h
    obtain ⟨ss, hss, htext⟩ := exists_segmented_of_lexFrom h
    have hlex := lexFrom_of_segmented hss []
    rw [htext] at hlex
    exact ⟨ss, hss, htext, Except.ok.inj (h.symm.trans hlex)⟩
  · rintro ⟨ss, hss, htext, rfl⟩
    have hlex := lexFrom_of_segmented hss []
    rwa [htext] at hlex

/-- Every token of a text but its end stands where it is written. -/
theorem exists_written_of_lex {text : String} {tokens : List Located} {t : Located}
    (h : lex text = .ok tokens) (ht : t ∈ tokens) (hne : t.token ≠ .eof) :
    ∃ before lexeme after, text.toList = before ++ (lexeme ++ after) ∧
      t.place = .behind before ∧ Written t.token lexeme after := by
  obtain ⟨ss, hss, htext, rfl⟩ := lex_eq_ok_iff.mp h
  rcases List.mem_append.mp ht with ht | ht
  · rw [← htext]
    exact exists_written_at_of_mem_lexemes hss ht
  · obtain rfl := List.mem_singleton.mp ht
    exact absurd rfl hne

/-- A text is lexed exactly if it can be cut into lexemes and trivia, and it can be cut in
one way.  The tokens are then what the lexemes are written for, each at the place behind
the text before it; the only end of the text among them is the last token, behind the last
character; and no line or column exceeds the length of the text by more than one. -/
theorem lex_segments_text (text : String) (tokens : List Located) :
    (lex text = .ok tokens ↔ ∃! ss, Segmented ss ∧ textOf ss = text.toList ∧
      tokens = lexemes [] ss ++ [⟨.eof, .behind text.toList⟩]) ∧
    (lex text = .ok tokens →
      tokens.getLast? = some ⟨.eof, .behind text.toList⟩ ∧
      (∀ t ∈ tokens.dropLast, t.token ≠ .eof) ∧
      ∀ t ∈ tokens, t.place.line ≤ text.length + 1 ∧ t.place.col ≤ text.length + 1) := by
  refine ⟨⟨fun h => ?_, fun ⟨ss, h, _⟩ => lex_eq_ok_iff.mpr ⟨ss, h⟩⟩, fun h => ?_⟩
  · obtain ⟨ss, hss, htext, htokens⟩ := lex_eq_ok_iff.mp h
    exact ⟨ss, ⟨hss, htext, htokens⟩, fun ss' h' => h'.1.unique hss (h'.2.1.trans htext.symm)⟩
  · obtain ⟨ss, hss, htext, rfl⟩ := lex_eq_ok_iff.mp h
    refine ⟨by simp, fun t ht => ?_, fun t ht => ?_⟩
    · rw [List.dropLast_concat] at ht
      obtain ⟨_, _, hwritten⟩ := exists_written_of_mem_lexemes hss ht
      exact hwritten.ne_eof
    · rcases List.mem_append.mp ht with ht | ht
      · obtain ⟨part, hpart, hplace⟩ := exists_place_of_mem_lexemes ht
        have hlength := hpart.length_le
        rw [List.nil_append, htext, String.length_toList] at hlength
        have hle := Position.behind_le part
        rw [hplace]
        omega
      · obtain rfl := List.mem_singleton.mp ht
        exact (String.length_toList (s := text)) ▸ Position.behind_le text.toList

/-- A text with a comment of each kind, a number to the base sixteen, one with a fraction and
an exponent, and a string with every escape that is resolved and one that is kept. -/
def commented : String :=
  "enum e0 /***/ 0xA1fg 1.5e-2.5 // '\n'\\'\\\"\\\\\\n\\t\\d'"

/-- The tokens of that text. -/
def commentedTokens : List Located :=
  [⟨.keyword .enum, ⟨1, 1⟩⟩, ⟨.ident "e0", ⟨1, 6⟩⟩, ⟨.int 2591, ⟨1, 15⟩⟩, ⟨.ident "g", ⟨1, 20⟩⟩,
    ⟨.float "1.5e-2", ⟨1, 22⟩⟩, ⟨.punct .dot, ⟨1, 28⟩⟩, ⟨.int 5, ⟨1, 29⟩⟩,
    ⟨.str "'\"\\\n\t\\d", ⟨2, 1⟩⟩, ⟨.eof, ⟨2, 15⟩⟩]

theorem lex_segments_commented : lex commented = .ok commentedTokens ∧
    (∃! ss, Segmented ss ∧ textOf ss = commented.toList ∧
      commentedTokens = lexemes [] ss ++ [⟨.eof, .behind commented.toList⟩]) ∧
    commentedTokens.getLast? = some ⟨.eof, .behind commented.toList⟩ := by
  have hlex : lex commented = .ok commentedTokens :=
    Fallible.toOption_eq_some.mp (by decide +kernel)
  have htext := lex_segments_text commented commentedTokens
  exact ⟨hlex, htext.1.mp hlex, (htext.2 hlex).1⟩

end Schemata
