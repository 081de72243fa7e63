/-
Lexing goes line by line.

Nothing the lexer knows outlives a line feed.  A lexeme ends before it, because no lexeme
looks ahead for one; a line comment does too, and a block comment or a string that a text
leaves open is refused, so a text that is lexed leaves nothing open at its end.  Behind it
the columns start again, and the lines above are all that is left to tell.  So what is lexed
before a line feed and what is lexed behind it are put side by side.

The one thing that takes a line feed in without being asked to is a backslash inside a
string.  A string that is to be closed on its line has to be told apart from one whose line
feed stands behind such a backslash.
-/
import Schemata.Proofs.Token.Unlexable

namespace Schemata

open Lexer Text

/-! ### Places further down -/

/-- The place so many lines below. -/
def Text.Position.below (p : Position) (n : Nat) : Position := ⟨p.line + n, p.col⟩

/-- The token so many lines below. -/
def Located.below (t : Located) (n : Nat) : Located := ⟨t.token, t.place.below n⟩

/-- The character so many lines below. -/
def Unlexable.below (u : Unlexable) (n : Nat) : Unlexable := ⟨u.place.below n, u.char⟩

namespace Text.Position

theorem step_below (p : Position) (n : Nat) (c : Char) :
    (p.below n).step c = (p.step c).below n := by
  by_cases h : c = '\n'
  · simp only [step, below, if_pos h, Nat.add_right_comm]
  · simp only [step, below, if_neg h]

theorem after_below (p : Position) (n : Nat) (cs : List Char) :
    (p.below n).after cs = (p.after cs).below n := by
  induction cs generalizing p with
  | nil => rfl
  | cons c cs ih => rw [after_cons, after_cons, step_below, ih]

/-- Behind a text and a line feed a line begins, as far down as there are line feeds. -/
theorem behind_line (cs : List Char) :
    behind (cs ++ ['\n']) = start.below (cs.count '\n' + 1) := by
  have hline : 1 + (cs.count '\n' + 1) = 1 + cs.count '\n' + 1 := by omega
  rw [← step_behind, step, if_pos rfl]
  simp only [behind, start, below, hline]

end Text.Position

namespace Lexer

theorem located_below (piece : Piece) (p : Position) (n : Nat) :
    piece.located (p.below n) = (piece.located p).map (·.below n) := by
  rw [Piece.located, Piece.located, List.map_map]
  rfl

/-- Where no piece begins lexing fails. -/
theorem lexFrom_of_scan_eq_none {p : Position} {c : Char} {cs : List Char}
    (h : scan c cs = none) : lexFrom p (c :: cs) = .error ⟨p, c⟩ := by
  rw [lexFrom]
  split
  · rfl
  · rename_i hsome
    cases h.symm.trans hsome

/-- Further down a text is lexed alike. -/
theorem lexFrom_below (p : Position) (n : Nat) (cs : List Char) :
    lexFrom (p.below n) cs =
      ((lexFrom p cs).map (·.map (·.below n))).mapError (·.below n) := by
  fun_induction lexFrom p cs with
  | case1 p => rw [lexFrom]; rfl
  | case2 p c cs hscan => exact lexFrom_of_scan_eq_none hscan
  | case3 p c cs piece hscan ih =>
      rw [lexFrom_of_scan hscan, Position.after_below, ih, located_below]
      cases lexFrom (p.after piece.text) piece.rest with
      | error u => rfl
      | ok later => exact congrArg Except.ok (List.map_append ..).symm

/-! ### The end of a line -/

theorem unseen_line (rest : List Char) : Unseen ('\n' :: rest) :=
  (separates_of_isBlank (by decide)).unseen rest

/-- A segment that can stand at the end of a text can stand at the end of a line. -/
theorem Segment.Fits.beforeLine {s : Segment} {mid : List Char} (h : s.Fits mid)
    (rest : List Char) : s.Fits (mid ++ '\n' :: rest) := by
  obtain ⟨token?, text⟩ := s
  rw [← List.append_nil mid] at h
  cases token? with
  | some t => exact Written.insert (unseen_line rest) h
  | none => exact Trivia.insert (fun _ _ => rfl) h

theorem Segmented.beforeLine {ss : List Segment} (h : Segmented ss) (rest : List Char) :
    SegmentedBefore ('\n' :: rest) ss := by
  induction ss with
  | nil => trivial
  | cons s ss ih => exact ⟨h.1.beforeLine rest, ih h.2⟩

/-- A line feed is white space, and behind it a line begins. -/
theorem lexFrom_line (before rest : List Char) :
    lexFrom (.behind before) ('\n' :: rest) =
      ((lexFrom .start rest).map (·.map (·.below (before.count '\n' + 1)))).mapError
        (·.below (before.count '\n' + 1)) := by
  have hplace : (Position.behind before).after ['\n'] =
      Position.start.below (before.count '\n' + 1) :=
    (Position.after_behind before ['\n']).trans (Position.behind_line before)
  rw [lexFrom_of_scan (scan_blank (by decide) rest), ← lexFrom_below, ← hplace]
  show (lexFrom ((Position.behind before).after ['\n']) rest).bind _ = _
  cases lexFrom ((Position.behind before).after ['\n']) rest <;> rfl

end Lexer

/-- **Lexing is put together at line ends.**  Behind a text that is lexed and a line feed,
another text is lexed exactly if it is lexed by itself.  There are then the tokens of the one
without its end of input and those of the other, so many lines further down as the first has
line feeds and the one between; and where the other is refused, so are both, at the same
character as many lines further down. -/
theorem lex_append_line {a : String} {ts : List Located} (h : lex a = .ok ts) :
    ts = ts.dropLast ++ [⟨.eof, .behind a.toList⟩] ∧ ∀ b : String,
      ((∃ all, lex (a ++ "\n" ++ b) = .ok all) ↔ ∃ us, lex b = .ok us) ∧
      (∀ us, lex b = .ok us → lex (a ++ "\n" ++ b) =
        .ok (ts.dropLast ++ us.map (·.below (a.toList.count '\n' + 1)))) ∧
      ∀ u, lex b = .error u →
        lex (a ++ "\n" ++ b) = .error (u.below (a.toList.count '\n' + 1)) := by
  obtain ⟨ss, hss, htext, rfl⟩ := lex_eq_ok_iff.mp h
  rw [List.dropLast_concat]
  refine ⟨rfl, fun b => ?_⟩
  have hboth : lex (a ++ "\n" ++ b) =
      (((lex b).map (·.map (·.below (a.toList.count '\n' + 1)))).mapError
        (·.below (a.toList.count '\n' + 1))).map (lexemes [] ss ++ ·) := by
    have hsplit := lexFrom_of_segmentedBefore (hss.beforeLine b.toList) []
    have hchars : (a ++ "\n" ++ b).toList = textOf ss ++ '\n' :: b.toList := by
      rw [String.toList_append, String.toList_append, htext, List.append_assoc]
      rfl
    rw [List.nil_append, lexFrom_line, htext] at hsplit
    rw [lex, hchars, lex, htext]
    exact hsplit
  cases hb : lex b with
  | ok us =>
      rw [hb] at hboth
      exact ⟨⟨fun _ => ⟨us, rfl⟩, fun _ => ⟨_, hboth⟩⟩, fun _ hus => by cases hus; exact hboth,
        nofun⟩
  | error u =>
      rw [hb] at hboth
      refine ⟨⟨?_, nofun⟩, nofun, fun _ hu => by cases hu; exact hboth⟩
      rintro ⟨all, hall⟩
      cases hboth.symm.trans hall

/-- A text of two lines that ends in half a number and a comment with a quote in it. -/
def halfway : String := "/*\n*/ 1e//'"

/-- The tokens of that text. -/
def halfwayTokens : List Located := [⟨.int 1, ⟨2, 4⟩⟩, ⟨.ident "e", ⟨2, 5⟩⟩, ⟨.eof, ⟨2, 9⟩⟩]

/-- A sign does not go on with the number above it, nor a quote with the one in the comment. -/
theorem lex_append_line_halfway :
    lex halfway = .ok halfwayTokens ∧
    lex (halfway ++ "\n" ++ "-3") =
      .ok [⟨.int 1, ⟨2, 4⟩⟩, ⟨.ident "e", ⟨2, 5⟩⟩, ⟨.punct .minus, ⟨3, 1⟩⟩, ⟨.int 3, ⟨3, 2⟩⟩,
        ⟨.eof, ⟨3, 3⟩⟩] ∧
    lex (halfway ++ "\n" ++ "x'") = .error ⟨⟨3, 2⟩, '\''⟩ := by
  have hhalf : lex halfway = .ok halfwayTokens := Fallible.toOption_eq_some.mp (by decide +kernel)
  have hnumber : lex "-3" = .ok [⟨.punct .minus, ⟨1, 1⟩⟩, ⟨.int 3, ⟨1, 2⟩⟩, ⟨.eof, ⟨1, 3⟩⟩] :=
    Fallible.toOption_eq_some.mp (by decide +kernel)
  have hquote : lex "x'" = .error ⟨⟨1, 2⟩, '\''⟩ := by decide +kernel
  obtain ⟨-, hline⟩ := lex_append_line hhalf
  exact ⟨hhalf, (hline "-3").2.1 _ hnumber, (hline "x'").2.2 _ hquote⟩

/-! ### Strings on a line -/

namespace Lexer

/-- Behind its opening quote the string is closed before its line ends. -/
def ClosesOnLine (quote : Char) (inside : List Char) : Prop :=
  ∃ (parts : List StringPart) (rest : List Char), (∀ part ∈ parts, part.FitsIn quote) ∧
    '\n' ∉ parts.flatMap StringPart.text ∧
    inside = parts.flatMap StringPart.text ++ quote :: rest

/-- Behind its opening quote the string reaches the end of its line at a backslash, with the
line feed in the place of the character it escapes. -/
def EscapesLineEnd (quote : Char) (inside : List Char) : Prop :=
  ∃ (parts : List StringPart) (rest : List Char), (∀ part ∈ parts, part.FitsIn quote) ∧
    '\n' ∉ parts.flatMap StringPart.text ∧
    inside = parts.flatMap StringPart.text ++ '\\' :: '\n' :: rest

/-- The first line feed inside a string is one that is escaped. -/
theorem exists_escape_of_newline_mem {quote : Char} {parts : List StringPart}
    (hparts : ∀ part ∈ parts, part.FitsIn quote)
    (h : '\n' ∈ parts.flatMap StringPart.text) : ∃ before after,
      parts = before ++ .escape '\n' :: after ∧ '\n' ∉ before.flatMap StringPart.text := by
  induction parts with
  | nil => cases h
  | cons part parts ih =>
      obtain ⟨hpart, hlater⟩ := List.forall_mem_cons.mp hparts
      by_cases hown : '\n' ∈ part.text
      · cases part with
        | plain c => exact absurd (List.mem_singleton.mp hown).symm hpart.2.2
        | escape c =>
            have hc : c = '\n' := by simpa [StringPart.text, eq_comm] using hown
            exact ⟨[], parts, by rw [hc]; rfl, List.not_mem_nil⟩
      · rw [List.flatMap_cons, List.mem_append, or_iff_right hown] at h
        obtain ⟨before, after, rfl, hbefore⟩ := ih hlater h
        refine ⟨part :: before, after, rfl, ?_⟩
        rw [List.flatMap_cons, List.mem_append, not_or]
        exact ⟨hown, hbefore⟩

/-- A string that takes in a line feed escapes the end of its first line. -/
theorem escapesLineEnd_of_newline_mem {quote : Char} {parts : List StringPart}
    (hparts : ∀ part ∈ parts, part.FitsIn quote)
    (h : '\n' ∈ parts.flatMap StringPart.text) (rest : List Char) :
    EscapesLineEnd quote (parts.flatMap StringPart.text ++ rest) := by
  obtain ⟨before, after, rfl, hbefore⟩ := exists_escape_of_newline_mem hparts h
  refine ⟨before, after.flatMap StringPart.text ++ rest, ?_, hbefore, ?_⟩
  · exact fun part hpart => hparts part (List.mem_append_left _ hpart)
  · simp [StringPart.text]

/-- A string is read if it closes on its line, or perhaps if it escapes the end of that line. -/
theorem quoted_eq_none_of_open {quote : Char} {inside : List Char}
    (hopen : ¬ ClosesOnLine quote inside) (hescape : ¬ EscapesLineEnd quote inside) :
    quoted quote inside = none := by
  by_contra hsome
  obtain ⟨q, hq⟩ := Option.ne_none_iff_exists'.mp hsome
  obtain ⟨parts, hparts, -, htext⟩ := quoted_sound hq
  have hinside : inside = parts.flatMap StringPart.text ++ quote :: q.rest := by
    rw [← quoted_append hq, htext, List.append_assoc]
    rfl
  by_cases hfeed : '\n' ∈ parts.flatMap StringPart.text
  · exact hescape (hinside ▸ escapesLineEnd_of_newline_mem hparts hfeed _)
  · exact hopen ⟨parts, q.rest, hparts, hfeed, hinside⟩

theorem takeWhile_append_of_no_newline {front : List Char} (h : '\n' ∉ front)
    (cs : List Char) : (front ++ cs).takeWhile (· != '\n') =
      front ++ cs.takeWhile (· != '\n') :=
  List.takeWhile_append_of_pos fun _ hc => bne_iff_ne.mpr fun heq => h (heq ▸ hc)

/-- A string that closes on its line is read where nothing but the line is there. -/
theorem ClosesOnLine.isSome_quoted {quote : Char} {inside : List Char}
    (hquote : quote = '"' ∨ quote = '\'') (h : ClosesOnLine quote inside) :
    (quoted quote (inside.takeWhile (· != '\n'))).isSome := by
  obtain ⟨parts, rest, hparts, hfeed, rfl⟩ := h
  have hline : (quote != '\n') = true := by rcases hquote with rfl | rfl <;> decide
  rw [takeWhile_append_of_no_newline hfeed, List.takeWhile_cons, if_pos hline,
    quoted_complete hquote hparts]
  rfl

/-- A string that escapes the end of its line is read where it closes behind the line feed. -/
theorem EscapesLineEnd.isSome_quoted {quote : Char} {inside : List Char}
    (hquote : quote = '"' ∨ quote = '\'') (h : EscapesLineEnd quote inside) :
    (quoted quote (inside.takeWhile (· != '\n') ++ ['\n', quote])).isSome := by
  obtain ⟨parts, rest, hparts, hfeed, rfl⟩ := h
  have hline : ('\\' :: '\n' :: rest).takeWhile (· != '\n') = ['\\'] := rfl
  have hescaped : ∀ part ∈ parts ++ [.escape '\n'], part.FitsIn quote :=
    List.forall_mem_append.mpr ⟨hparts, List.forall_mem_singleton.mpr trivial⟩
  have hread := quoted_complete hquote hescaped []
  rw [takeWhile_append_of_no_newline hfeed, hline, List.append_assoc]
  simp only [List.flatMap_append, List.append_assoc] at hread
  exact Option.isSome_iff_exists.mpr ⟨_, hread⟩

/-- The lexeme of a string is a quote and what stands behind it, with a line feed in it only
where one is escaped. -/
theorem Written.exists_quote {t : Token} {content : String} {text rest : List Char}
    (h : Written t text rest) (ht : t = .str content) :
    ∃ quote inside, text = quote :: inside ∧
      (¬ EscapesLineEnd quote inside → '\n' ∉ quote :: inside) := by
  cases h with
  | str hquote hparts =>
      rename_i quote parts
      have hne : '\n' ≠ quote := by rcases hquote with rfl | rfl <;> decide
      refine ⟨quote, parts.flatMap StringPart.text ++ [quote], rfl, fun hescape hfeed => ?_⟩
      rcases List.mem_cons.mp hfeed with heq | hfeed
      · exact hne heq
      rcases List.mem_append.mp hfeed with hfeed | hfeed
      · exact hescape (escapesLineEnd_of_newline_mem hparts hfeed _)
      · exact hne (List.mem_singleton.mp hfeed)
  | _ => cases ht

end Lexer

/-- **Strings are closed on their line.**  Where lexing comes to a quote whose string is not
closed before the line ends, it fails at that quote; and a string of a text that is lexed is
written there with no line feed in it.  Only where a backslash stands before the line feed and
escapes it is neither said. -/
theorem lex_closes_strings (text : String) :
    (∀ (ss : List Segment) (quote : Char) (inside : List Char),
      text.toList = textOf ss ++ quote :: inside → SegmentedBefore (quote :: inside) ss →
      quote = '"' ∨ quote = '\'' → ¬ ClosesOnLine quote inside → ¬ EscapesLineEnd quote inside →
      lex text = .error ⟨.behind (textOf ss), quote⟩) ∧
    ∀ tokens : List Located, lex text = .ok tokens →
      ∀ t ∈ tokens, ∀ content, t.token = .str content →
        ∃ before quote inside after, text.toList = before ++ (quote :: inside ++ after) ∧
          t.place = .behind before ∧ Written t.token (quote :: inside) after ∧
          (¬ EscapesLineEnd quote inside → '\n' ∉ quote :: inside) := by
  constructor
  · intro ss quote inside htext hss hquote hopen hescape
    have hscan : scan quote inside = none := by
      rw [scan_quote hquote, quoted_eq_none_of_open hopen hescape]
      rfl
    have hlex := lexFrom_of_segmentedBefore hss []
    rw [List.nil_append, lexFrom_of_scan_eq_none hscan] at hlex
    rw [lex, htext]
    exact hlex
  · intro tokens hlex t ht content hcontent
    obtain ⟨before, lexeme, after, htext, hplace, hwritten⟩ :=
      exists_written_of_lex hlex ht (by rw [hcontent]; nofun)
    obtain ⟨quote, inside, rfl, hclean⟩ := hwritten.exists_quote hcontent
    exact ⟨before, quote, inside, after, htext, hplace, hwritten, hclean⟩

/-- A string that is open where its line ends, behind an escaped backslash. -/
def severed : String := "= 'a\\\\\n';"

/-- What is escaped at the end of the line is the backslash and not the line feed, so lexing
fails at the quote; and a string of two backslashes is written with no line feed. -/
theorem lex_closes_strings_severed :
    lex severed = .error ⟨⟨1, 3⟩, '\''⟩ ∧
    ∃ before quote inside after, "'\\\\'".toList = before ++ (quote :: inside ++ after) ∧
      (⟨1, 1⟩ : Position) = .behind before ∧
      Written (.str "\\") (quote :: inside) after ∧
      (¬ EscapesLineEnd quote inside → '\n' ∉ quote :: inside) := by
  have hopen : ¬ ClosesOnLine '\'' ['a', '\\', '\\', '\n', '\'', ';'] := fun h =>
    absurd (h.isSome_quoted (.inr rfl)) (by decide +kernel)
  have hescape : ¬ EscapesLineEnd '\'' ['a', '\\', '\\', '\n', '\'', ';'] := fun h =>
    absurd (h.isSome_quoted (.inr rfl)) (by decide +kernel)
  have hbefore : SegmentedBefore ('\'' :: ['a', '\\', '\\', '\n', '\'', ';'])
      [⟨some (.punct .equals), ['=']⟩, ⟨none, [' ']⟩] :=
    ⟨.punct .equals, .blank rfl, trivial⟩
  have hlex : lex "'\\\\'" = .ok [⟨.str "\\", ⟨1, 1⟩⟩, ⟨.eof, ⟨1, 5⟩⟩] :=
    Fallible.toOption_eq_some.mp (by decide +kernel)
  exact ⟨(lex_closes_strings severed).1 _ '\'' _ rfl hbefore (.inr rfl) hopen hescape,
    (lex_closes_strings "'\\\\'").2 _ hlex _ List.mem_cons_self "\\" rfl⟩

/-- A string with a line feed behind a backslash. -/
def carried : String := "\"a\\\nb\""

/-- Behind a backslash a string goes on past the end of its line. -/
theorem carried_spans_lines :
    ∃ inside, carried.toList = '"' :: inside ∧ SegmentedBefore ('"' :: inside) [] ∧
      ¬ ClosesOnLine '"' inside ∧
      lex carried = .ok [⟨.str "a\\\nb", ⟨1, 1⟩⟩, ⟨.eof, ⟨2, 3⟩⟩] ∧
      Written (.str "a\\\nb") carried.toList [] ∧ '\n' ∈ carried.toList := by
  have hopen : ¬ ClosesOnLine '"' ['a', '\\', '\n', 'b', '"'] := fun h =>
    absurd (h.isSome_quoted (.inl rfl)) (by decide +kernel)
  have hlex : lex carried = .ok [⟨.str "a\\\nb", ⟨1, 1⟩⟩, ⟨.eof, ⟨2, 3⟩⟩] :=
    Fallible.toOption_eq_some.mp (by decide +kernel)
  have hparts : ∀ part ∈ [.plain 'a', .escape '\n', .plain 'b'], StringPart.FitsIn '"' part := by
    simp [StringPart.FitsIn]
  exact ⟨_, rfl, trivial, hopen, hlex, .str (.inl rfl) hparts, by decide +kernel⟩

end Schemata
