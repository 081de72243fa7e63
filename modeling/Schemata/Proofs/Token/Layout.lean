/-
Where a text may be filled up.

Trivia may be put in at the start of a text and on either side of a lexeme, and the tokens
stay what they are.  What stands to the right of the filler does not notice it, for nothing
looks back.  What stands to the left looks ahead, but only for characters of a few classes,
and the filler begins with white space or a slash, which are in none of them.  The one piece
that would swallow the filler is a comment that runs to the end of its line, and such a
comment is never next to a lexeme.
-/
import Schemata.Proofs.Token.Segments

namespace Schemata

namespace Lexer

open Text

/-! ### Characters nothing looks ahead for -/

/-- The classes of characters a lexeme looks ahead for. -/
def lookahead : List (Char → Bool) :=
  [inWord, Char.isDigit, inHex, (· == '.'), isExponentMark, isSign, isHexMark]

/-- No lexeme looks ahead for the character. -/
def Separates (c : Char) : Prop := ∀ p ∈ lookahead, p c = false

theorem separates_slash : Separates '/' := by
  simp only [Separates, lookahead, List.forall_mem_cons]
  decide

theorem separates_of_isBlank {c : Char} (h : isBlank c = true) : Separates c := by
  have hword : ¬ inWord c = true := fun hc => by
    rw [isBlank_of_inWord hc] at h
    cases h
  have hne : ∀ d, isBlank d = false → c ≠ d := by
    rintro d hd rfl
    rw [hd] at h
    cases h
  simp only [Separates, lookahead, List.forall_mem_cons, Bool.eq_false_iff, isExponentMark,
    isSign, isHexMark, Bool.or_eq_true, beq_iff_eq, ne_eq, not_or]
  exact ⟨hword, hword ∘ inWord_of_isDigit, hword ∘ inWord_of_inHex,
    hne _ (by decide), ⟨hne _ (by decide), hne _ (by decide)⟩,
    ⟨hne _ (by decide), hne _ (by decide)⟩, ⟨hne _ (by decide), hne _ (by decide)⟩,
    List.forall_mem_nil _⟩

/-- No lexeme looks into the text. -/
def Unseen (u : List Char) : Prop := ∀ c ∈ u.head?, Separates c

theorem unseen_nil : Unseen [] := nofun

theorem Separates.unseen {c : Char} (hc : Separates c) (u : List Char) : Unseen (c :: u) := by
  intro d hd
  obtain rfl := Option.some.inj hd
  exact hc

section

variable {mid rest u : List Char}

theorem Unseen.ahead {p : Char → Bool} {ps : List (Char → Bool)} (hu : Unseen u)
    (hp : p ∈ lookahead) : ahead (p :: ps) u = false := by
  cases u with
  | nil => rfl
  | cons c u => simp [hu c rfl p hp]

/-- What is not ahead in a text is not ahead either where the text ends or goes on with a
character that is not looked for. -/
theorem ahead_insert {ps : List (Char → Bool)} (hps : ps ⊆ lookahead) (hu : Unseen u)
    (h : ahead ps (mid ++ rest) = false) : ahead ps (mid ++ u) = false := by
  induction mid generalizing ps with
  | nil =>
      cases ps with
      | nil =>
          rw [ahead_nil] at h
          cases h
      | cons p ps => exact hu.ahead (hps List.mem_cons_self)
  | cons d mid ih =>
      cases ps with
      | nil =>
          rw [ahead_nil] at h
          cases h
      | cons p ps =>
          rw [List.cons_append, ahead_cons, Bool.and_eq_false_iff] at h ⊢
          exact h.imp_right (ih fun q hq => hps (List.mem_cons_of_mem _ hq))

theorem fractionAhead_insert (hu : Unseen u) (h : fractionAhead (mid ++ rest) = false) :
    fractionAhead (mid ++ u) = false :=
  ahead_insert (by simp [lookahead]) hu h

theorem exponentAhead_insert (hu : Unseen u) (h : exponentAhead (mid ++ rest) = false) :
    exponentAhead (mid ++ u) = false := by
  rw [exponentAhead, Bool.or_eq_false_iff] at h ⊢
  exact ⟨ahead_insert (by simp [lookahead]) hu h.1, ahead_insert (by simp [lookahead]) hu h.2⟩

theorem Decimal.insert {whole fraction exponent : List Char} (hu : Unseen u)
    (h : Decimal whole fraction exponent (mid ++ rest)) :
    Decimal whole fraction exponent (mid ++ u) where
  whole := h.whole
  fraction := h.fraction.imp_left fun ⟨hnone, hahead⟩ => by
    rw [← List.append_assoc] at hahead ⊢
    exact ⟨hnone, fractionAhead_insert hu hahead⟩
  exponent := h.exponent.imp_left fun ⟨hnone, hahead⟩ => ⟨hnone, exponentAhead_insert hu hahead⟩
  ends := ahead_insert (by simp [lookahead]) hu h.ends

/-- A token is written the same way where the text behind it ends or goes on with a character
that is not looked for. -/
theorem Written.insert {t : Token} {text : List Char} (hu : Unseen u)
    (h : Written t text (mid ++ rest)) : Written t text (mid ++ u) := by
  cases h with
  | keyword k hends => exact .keyword k (ahead_insert (by simp [lookahead]) hu hends)
  | ident hname hends => exact .ident hname (ahead_insert (by simp [lookahead]) hu hends)
  | int h hzero hvalue =>
      have hends := fun hd => ahead_insert (by simp [lookahead]) hu (hzero hd)
      exact .int (h.insert hu) hends hvalue
  | hex hmark hdigits hends hvalue =>
      exact .hex hmark hdigits (ahead_insert (by simp [lookahead]) hu hends) hvalue
  | float h htail => exact .float (h.insert hu) htail
  | str hquote hparts => exact .str hquote hparts
  | punct p => exact .punct p

/-- The same of trivia, unless it is a comment that the text behind it has to end. -/
theorem Trivia.insert {text : List Char}
    (hends : mid = [] → ahead [(· != '\n')] rest = false → ahead [(· != '\n')] u = false)
    (h : Trivia text (mid ++ rest)) : Trivia text (mid ++ u) := by
  cases h with
  | blank h => exact .blank h
  | block hbody => exact .block hbody
  | line hbody hline =>
      cases mid with
      | nil => exact .line hbody (hends rfl hline)
      | cons d mid =>
          rw [List.cons_append, ahead_cons, ahead_nil, Bool.and_true] at hline
          exact .line hbody (by simp [hline])

end

/-! ### Fillers -/

/-- What a text may be filled up with: white space, a comment up to the end of its line and
the line feed that ends it, or a comment that is closed. -/
inductive Filler : List Char → Prop
  | blanks {cs : List Char} (h : ∀ c ∈ cs, isBlank c = true) : Filler cs
  | line {body : List Char} (h : '\n' ∉ body) : Filler ('/' :: '/' :: (body ++ ['\n']))
  | block {body : List Char} (h : ¬ ['*', '/'] <:+: body ++ ['*']) :
      Filler ('/' :: '*' :: (body ++ ['*', '/']))

/-- A filler that is there begins with a character that is not looked for. -/
theorem Filler.separates {c : Char} {cs : List Char} (h : Filler (c :: cs)) : Separates c := by
  cases h with
  | blanks h => exact separates_of_isBlank (h c List.mem_cons_self)
  | line h => exact separates_slash
  | block h => exact separates_slash

/-- A filler is cut into segments that stand for no token, whatever is behind it. -/
theorem Filler.exists_segmented {cs : List Char} (h : Filler cs) {ss : List Segment}
    (hss : Segmented ss) : ∃ fs, textOf fs = cs ∧ Segmented (fs ++ ss) ∧
      ∀ s ∈ fs, s.token? = none := by
  have hnewline : Trivia ['\n'] (textOf ss) := .blank (by decide)
  cases h with
  | blanks h =>
      refine ⟨cs.map fun c => ⟨none, [c]⟩, ?_, ?_, by simp⟩
      · simp [textOf, List.flatMap_map]
      · induction cs with
        | nil => exact hss
        | cons c cs ih =>
            obtain ⟨hc, hcs⟩ := List.forall_mem_cons.mp h
            exact ⟨.blank hc, ih hcs⟩
  | line h =>
      rename_i body
      refine ⟨[⟨none, '/' :: '/' :: body⟩, ⟨none, ['\n']⟩], by simp, ?_, by simp⟩
      exact ⟨.line h rfl, hnewline, hss⟩
  | block h =>
      rename_i body
      refine ⟨[⟨none, '/' :: '*' :: (body ++ ['*', '/'])⟩], by simp, ?_, by simp⟩
      exact ⟨.block h, hss⟩

/-! ### Seams -/

/-- A text is cut into segments here and there, and it starts there or has a lexeme at its
one end or the other. -/
structure Seam (ss ss' : List Segment) : Prop where
  segmented : Segmented (ss ++ ss')
  place : ss = [] ∨ (∃ s, ss.getLast? = some s ∧ s.token?.isSome) ∨
    ∃ s, ss'.head? = some s ∧ s.token?.isSome

theorem Segmented.of_append {ss ss' : List Segment} (h : Segmented (ss ++ ss')) :
    Segmented ss' := by
  induction ss with
  | nil => exact h
  | cons s ss ih => exact ih h.2

/-- A segment takes up some of the text. -/
theorem Segment.Fits.text_ne_nil {s : Segment} {rest : List Char} (h : s.Fits rest) :
    s.text ≠ [] := by
  obtain ⟨c, cs, htext, hscan⟩ := scan_of_fits h
  have hshorter := scan_shorter hscan
  have hlength := congrArg List.length htext
  rintro hnil
  simp only [hnil, List.nil_append, List.length_cons] at hlength hshorter
  omega

/-- No lexeme begins with a line feed. -/
theorem Written.ahead_ne_newline {t : Token} {text rest : List Char} (h : Written t text rest) :
    ahead [(· != '\n')] (text ++ rest) = true := by
  obtain ⟨c, cs, htext, hscan⟩ := scan_of_written h
  rw [htext, ahead_cons, ahead_nil, Bool.and_true, bne_iff_ne]
  rintro rfl
  cases hscan.symm.trans (scan_blank (by decide) cs)

/-- Segments stay where they are if what stands behind them is made to begin with a character
that is not looked for, except for a comment that is last and ends with its line. -/
theorem Segmented.insert {ss ss' ts : List Segment} (hunseen : Unseen (textOf ts))
    (hts : Segmented ts) (h : Segmented (ss ++ ss'))
    (hlast : ∀ s, ss.getLast? = some s →
      s.token?.isSome ∨ ahead [(· != '\n')] (textOf ss') = true) : Segmented (ss ++ ts) := by
  induction ss with
  | nil => exact hts
  | cons s ss ih =>
      obtain ⟨hfits, hrest⟩ := h
      have hlater : ∀ s', ss.getLast? = some s' →
          s'.token?.isSome ∨ ahead [(· != '\n')] (textOf ss') = true := by
        intro s' hs'
        exact hlast s' (by rw [List.getLast?_cons, hs']; rfl)
      refine ⟨?_, ih hrest hlater⟩
      rw [List.append_eq, textOf_append] at hfits ⊢
      cases htoken : s.token? with
      | some t =>
          simp only [Segment.Fits, Piece.Fits, htoken] at hfits ⊢
          exact hfits.insert hunseen
      | none =>
          have hends : textOf ss = [] → ahead [(· != '\n')] (textOf ss') = true := by
            intro hnil
            cases ss with
            | nil =>
                rcases hlast s rfl with hsome | hahead
                · rw [htoken] at hsome
                  cases hsome
                · exact hahead
            | cons s' ss =>
                obtain ⟨hnext, -⟩ := hrest
                exact absurd (List.append_eq_nil_iff.mp hnil).1 hnext.text_ne_nil
          simp only [Segment.Fits, Piece.Fits, htoken] at hfits ⊢
          refine hfits.insert fun hnil hfalse => ?_
          rw [hends hnil] at hfalse
          cases hfalse

/-- At a seam a text may be filled up. -/
theorem Seam.exists_filled {ss ss' : List Segment} (h : Seam ss ss') {cs : List Char}
    (hcs : Filler cs) : ∃ fs, textOf fs = cs ∧ Segmented (ss ++ (fs ++ ss')) ∧
      ∀ s ∈ fs, s.token? = none := by
  obtain ⟨fs, htext, hfs, hnone⟩ := hcs.exists_segmented h.segmented.of_append
  refine ⟨fs, htext, ?_, hnone⟩
  cases cs with
  | nil =>
      -- Segments are not empty, so an empty filler has none.
      cases fs with
      | nil => exact h.segmented
      | cons s fs => exact absurd (List.append_eq_nil_iff.mp htext).1 hfs.1.text_ne_nil
  | cons c cs =>
      have hunseen : Unseen (textOf (fs ++ ss')) := by
        rw [textOf_append, htext]
        exact hcs.separates.unseen _
      refine Segmented.insert hunseen hfs h.segmented fun s hs => ?_
      rcases h.place with hnil | ⟨s', hs', hlexeme⟩ | ⟨s', hs', hlexeme⟩
      · rw [hnil] at hs
        cases hs
      · obtain rfl := Option.some.inj (hs.symm.trans hs')
        exact .inl hlexeme
      · obtain ⟨ss'', rfl⟩ : ∃ ss'', ss' = s' :: ss'' := List.head?_eq_some_iff.mp hs'
        obtain ⟨t, ht⟩ := Option.isSome_iff_exists.mp hlexeme
        have hwritten := h.segmented.of_append.1
        rw [Segment.Fits, Piece.Fits, ht] at hwritten
        exact .inr hwritten.ahead_ne_newline

theorem tokens_lexemes (before : List Char) (ss : List Segment) :
    (lexemes before ss).map (·.token) = ss.filterMap (·.token?) := by
  induction ss generalizing before with
  | nil => rfl
  | cons s ss ih => cases h : s.token? <;> simp [lexemes, h, ih]

end Lexer

open Lexer Text

/-- **A text that is filled up at a seam is lexed to the same tokens.** -/
theorem lex_filled {ss ss' : List Segment} (h : Seam ss ss') {cs : List Char} (hcs : Filler cs) :
    ∃ ts ts', lex (String.ofList (textOf ss ++ textOf ss')) = .ok ts ∧
      lex (String.ofList (textOf ss ++ (cs ++ textOf ss'))) = .ok ts' ∧
      ts'.map (·.token) = ts.map (·.token) := by
  obtain ⟨fs, rfl, hfilled, hnone⟩ := h.exists_filled hcs
  have hlex : ∀ {rs : List Segment}, Segmented rs → lex (String.ofList (textOf rs)) =
      .ok (lexemes [] rs ++ [⟨.eof, .behind (textOf rs)⟩]) := by
    intro rs hrs
    exact lex_eq_ok_iff.mpr ⟨rs, hrs, by simp, by simp⟩
  have hold := hlex h.segmented
  have hnew := hlex hfilled
  rw [textOf_append] at hold
  rw [textOf_append, textOf_append] at hnew
  refine ⟨_, _, hold, hnew, ?_⟩
  have hfs : fs.filterMap (·.token?) = [] := List.filterMap_eq_nil_iff.mpr hnone
  simp only [List.map_append, tokens_lexemes, List.filterMap_append, hfs, List.nil_append,
    List.map_cons, List.map_nil]

end Schemata
