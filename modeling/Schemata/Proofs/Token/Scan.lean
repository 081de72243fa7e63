/-
The scanner finds what is written.

`scan` takes the piece at the front of a text.  Whatever it takes fits, and whatever fits
it takes: the front of a text is a piece in one way at most, so cutting a text into
pieces is no choice.  Each of the scanner's parts comes with both halves, first that it
is right about what it reads and then that it reads all there is.
-/
import Schemata.Proofs.Token.Numbers

namespace Schemata.Lexer

open Schemata.Text

/-! ### Characters told apart

What a word or a number begins with is no white space, slash or quote, so none of the
scanner's tests answers for another.
-/

section

variable {c : Char}

theorem toNat_of_beginsWord (h : beginsWord c = true) :
    (65 ≤ c.toNat ∧ c.toNat ≤ 90) ∨ c.toNat = 95 ∨ (97 ≤ c.toNat ∧ c.toNat ≤ 122) := by
  simp only [beginsWord, Bool.or_eq_true, Bool.and_eq_true, decide_eq_true_eq, beq_iff_eq,
    Char.le_def, UInt32.le_iff_toNat_le] at h
  rcases h with (hupper | hlower) | rfl
  · exact .inl hupper
  · exact .inr (.inr hlower)
  · exact .inr (.inl rfl)

theorem toNat_of_isDigit (h : c.isDigit = true) : 48 ≤ c.toNat ∧ c.toNat ≤ 57 := by
  simp only [Char.isDigit, Bool.and_eq_true, decide_eq_true_eq, UInt32.le_iff_toNat_le] at h
  exact h

theorem toNat_of_inWord (h : inWord c = true) :
    (48 ≤ c.toNat ∧ c.toNat ≤ 57) ∨ (65 ≤ c.toNat ∧ c.toNat ≤ 90) ∨ c.toNat = 95 ∨
      (97 ≤ c.toNat ∧ c.toNat ≤ 122) := by
  rcases Bool.or_eq_true_iff.mp h with hstart | hdigit
  · exact .inr (toNat_of_beginsWord hstart)
  · exact .inl (toNat_of_isDigit hdigit)

theorem isBlank_of_inWord (h : inWord c = true) : isBlank c = false := by
  have hrange := toNat_of_inWord h
  simp only [isBlank, blankRanges, List.any_cons, List.any_nil, Bool.or_false,
    Bool.or_eq_false_iff, Bool.and_eq_false_iff, decide_eq_false_iff_not]
  omega

theorem inWord_of_isDigit (h : c.isDigit = true) : inWord c = true :=
  Bool.or_eq_true_iff.mpr (.inr h)

theorem inWord_of_beginsWord (h : beginsWord c = true) : inWord c = true :=
  Bool.or_eq_true_iff.mpr (.inl h)

theorem inWord_of_inHex (h : inHex c = true) : inWord c = true := by
  have hlist : "0123456789abcdefABCDEF".toList.all inWord = true := by decide
  exact List.all_eq_true.mp hlist c (List.contains_iff_mem.mp h)

theorem isDigit_of_beginsWord (h : beginsWord c = true) : c.isDigit = false := by
  rw [Bool.eq_false_iff]
  intro hdigit
  have hletter := toNat_of_beginsWord h
  have hrange := toNat_of_isDigit hdigit
  omega

/-- A character of a word is none that is no character of a word. -/
theorem ne_of_inWord {d : Char} (h : inWord c = true) (hd : inWord d = false) :
    c ≠ d := by
  rintro rfl
  exact absurd h (by simp [hd])

/-- No character of a word is punctuation. -/
theorem ofChar?_of_inWord (h : inWord c = true) : Punct.ofChar? c = none := by
  cases hp : Punct.ofChar? c with
  | none => rfl
  | some p =>
      obtain rfl := Punct.symbol_of_ofChar? hp
      cases p <;> exact absurd h (by decide)

end

/-! ### Comments -/

/-- A comment goes on past a character with which it does not close. -/
theorem closes_cons {c : Char} {body : List Char} :
    ['*', '/'] <:+: c :: body ++ ['*'] ↔
      c = '*' ∧ body.head? = some '/' ∨ ['*', '/'] <:+: body ++ ['*'] := by
  rw [List.cons_append, List.infix_cons_iff, List.cons_prefix_cons]
  cases body with
  | nil => simp [eq_comm]
  | cons d body => simp [eq_comm]

theorem closeComment_sound {cs text rest : List Char}
    (h : closeComment cs = some (text, rest)) :
    ∃ body, text = body ++ ['*', '/'] ∧ ¬ ['*', '/'] <:+: body ++ ['*'] := by
  fun_induction closeComment cs generalizing text rest with
  | case1 => cases h
  | case2 cs =>
      cases h
      exact ⟨[], rfl, by decide⟩
  | case3 c cs hopen ih =>
      obtain ⟨⟨text, rest⟩, hcs, he⟩ := Option.map_eq_some_iff.mp h
      cases he
      obtain ⟨body, rfl, hbody⟩ := ih hcs
      refine ⟨c :: body, rfl, fun hcloses => ?_⟩
      rcases closes_cons.mp hcloses with ⟨rfl, hhead⟩ | hcloses
      · -- The slash after this asterisk would have closed the comment here.
        obtain ⟨tail, rfl⟩ : ∃ tail, body = '/' :: tail := by
          cases body with
          | nil => cases hhead
          | cons d tail => exact ⟨tail, by simpa using hhead⟩
        have happend := closeComment_append hcs
        exact hopen _ rfl happend.symm
      · exact hbody hcloses

theorem closeComment_complete {body : List Char} (rest : List Char)
    (h : ¬ ['*', '/'] <:+: body ++ ['*']) :
    closeComment (body ++ '*' :: '/' :: rest) = some (body ++ ['*', '/'], rest) := by
  induction body with
  | nil => rfl
  | cons c body ih =>
      rw [closes_cons, not_or] at h
      have hopen : ∀ cs, c = '*' → body ++ '*' :: '/' :: rest = '/' :: cs → False := by
        rintro cs rfl hcs
        cases body with
        | nil => cases hcs
        | cons d body => exact h.1 ⟨rfl, by simpa using (List.cons.inj hcs).1⟩
      rw [List.cons_append, closeComment.eq_3 _ _ hopen, ih h.2]
      rfl

/-! ### Strings -/

theorem quoted_sound {quote : Char} {cs : List Char} {q : Quoted}
    (h : quoted quote cs = some q) :
    ∃ parts : List StringPart, (∀ part ∈ parts, part.FitsIn quote) ∧
      q.content = parts.flatMap StringPart.value ∧
      q.text = parts.flatMap StringPart.text ++ [quote] := by
  fun_induction quoted quote cs generalizing q with
  | case1 => cases h
  | case2 => cases h
  | case3 cs _ =>
      cases h
      exact ⟨[], by simp, rfl, rfl⟩
  | case4 => cases h
  | case5 e cs _ _ ih =>
      obtain ⟨r, hr, rfl⟩ := Option.map_eq_some_iff.mp h
      obtain ⟨parts, hparts, hcontent, htext⟩ := ih hr
      refine ⟨.escape e :: parts, List.forall_mem_cons.mpr ⟨trivial, hparts⟩, ?_, ?_⟩
      · simp [hcontent, StringPart.value_escape]
      · simp [htext, StringPart.text]
  | case6 c cs hline hquote hescape ih =>
      obtain ⟨r, hr, rfl⟩ := Option.map_eq_some_iff.mp h
      obtain ⟨parts, hparts, hcontent, htext⟩ := ih hr
      refine ⟨.plain c :: parts, List.forall_mem_cons.mpr ⟨⟨hquote, hescape, hline⟩, hparts⟩,
        ?_, ?_⟩
      · simp [hcontent, StringPart.value]
      · simp [htext, StringPart.text]

theorem quoted_complete {quote : Char} (hquote : quote = '"' ∨ quote = '\'')
    {parts : List StringPart} (hparts : ∀ part ∈ parts, part.FitsIn quote) (rest : List Char) :
    quoted quote (parts.flatMap StringPart.text ++ quote :: rest) =
      some ⟨parts.flatMap StringPart.value, parts.flatMap StringPart.text ++ [quote], rest⟩ := by
  have hline : quote ≠ '\n' := by rcases hquote with rfl | rfl <;> decide
  have hback : '\\' ≠ quote := by rcases hquote with rfl | rfl <;> decide
  induction parts with
  | nil =>
      rw [List.flatMap_nil, List.nil_append, quoted.eq_def]
      simp [hline]
  | cons part parts ih =>
      obtain ⟨hpart, hrest⟩ := List.forall_mem_cons.mp hparts
      cases part with
      | plain c =>
          obtain ⟨hclose, hescape, hfeed⟩ := hpart
          rw [List.flatMap_cons, StringPart.text, List.singleton_append, List.cons_append,
            quoted.eq_def]
          simp [hfeed, hclose, hescape, ih hrest, StringPart.value]
      | escape c =>
          rw [List.flatMap_cons, StringPart.text, List.cons_append, List.singleton_append,
            List.cons_append, List.cons_append, quoted.eq_def]
          simp [hback, ih hrest, StringPart.value_escape]

/-! ### Pieces -/

section

variable {c : Char}

theorem scan_eq_other (h : c ≠ '/') (cs : List Char) : scan c cs = scanOther c cs :=
  scan.eq_3 c cs (fun _ hc _ => h hc) fun _ hc _ => h hc

theorem ne_slash_of_isBlank (h : isBlank c = true) : c ≠ '/' := by
  rintro rfl
  exact absurd h (by decide)

theorem scan_blank (h : isBlank c = true) (cs : List Char) :
    scan c cs = some (single none c cs) := by
  rw [scan_eq_other (ne_slash_of_isBlank h), scanOther, if_pos h]

theorem scan_quote (h : c = '"' ∨ c = '\'') (cs : List Char) : scan c cs =
    (quoted c cs).map fun q => ⟨some (.str (String.ofList q.content)), c :: q.text, q.rest⟩ := by
  have hslash : c ≠ '/' := by rcases h with rfl | rfl <;> decide
  have hblank : isBlank c = false := by rcases h with rfl | rfl <;> decide
  rw [scan_eq_other hslash, scanOther, if_neg (by simp [hblank]), if_pos (by simpa using h)]

/-- Nothing that comes before words and numbers in the scanner's tests begins like one. -/
theorem scan_of_inWord (h : inWord c = true) (cs : List Char) : scan c cs =
    if c.isDigit then some (number (c :: cs))
    else if beginsWord c then some (word (c :: cs)) else none := by
  have hslash : c ≠ '/' := ne_of_inWord h rfl
  have hdouble : c ≠ '"' := ne_of_inWord h rfl
  have hsingle : c ≠ '\'' := ne_of_inWord h rfl
  rw [scan_eq_other hslash, scanOther, if_neg (by simp [isBlank_of_inWord h]),
    if_neg (by simp [hdouble, hsingle]), ofChar?_of_inWord h, isWordStart_eq]

theorem scan_digit (h : c.isDigit = true) (cs : List Char) :
    scan c cs = some (number (c :: cs)) := by
  rw [scan_of_inWord (inWord_of_isDigit h), if_pos h]

theorem scan_wordStart (h : beginsWord c = true) (cs : List Char) :
    scan c cs = some (word (c :: cs)) := by
  rw [scan_of_inWord (inWord_of_beginsWord h),
    if_neg (by simp [isDigit_of_beginsWord h]), if_pos h]

theorem scan_punct (p : Punct) (cs : List Char) :
    scan p.symbol cs = some (single (some (.punct p)) p.symbol cs) := by
  have hslash : p.symbol ≠ '/' := by cases p <;> decide
  have hblank : isBlank p.symbol = false := by cases p <;> decide
  have hquote : ¬ (p.symbol = '"' ∨ p.symbol = '\'') := by cases p <;> decide
  have hdigit : p.symbol.isDigit = false := by cases p <;> decide
  rw [scan_eq_other hslash, scanOther, if_neg (by simp [hblank]), if_neg (by simpa using hquote),
    if_neg (by simp [hdigit]), Punct.ofChar?_symbol]

/-- A reserved word is a word. -/
theorem isWord_keyword (k : Keyword) : IsWord k.word.toList := by
  have hword : (k.word.toList.head?.any beginsWord && k.word.toList.all inWord) = true := by
    cases k with
    | label l => cases l <;> decide
    | scalar s => cases s <;> decide
    | _ => decide
  cases hlist : k.word.toList with
  | nil =>
      rw [hlist] at hword
      cases hword
  | cons c rest =>
      rw [hlist, List.all_cons, Bool.and_eq_true, Bool.and_eq_true, List.all_eq_true] at hword
      exact ⟨c, rest, rfl, hword.1, hword.2.2⟩

theorem ofWord_word (k : Keyword) : Token.ofWord k.word = .keyword k := by
  simp [Token.ofWord]

theorem ofWord_of_free {w : String} (h : ∀ k : Keyword, k.word ≠ w) :
    Token.ofWord w = .ident w := by
  unfold Token.ofWord
  split
  · rename_i k hk
    exact absurd (Keyword.word_of_ofWord? hk) (h k)
  · rfl

/-- The longest word there is is read, reserved or not. -/
theorem word_sound (h : beginsWord c = true) (cs : List Char) : (word (c :: cs)).Fits := by
  have hpart := inWord_of_beginsWord h
  have hends := ahead_dropWhile inWord (c :: cs)
  have hword : IsWord ((c :: cs).takeWhile inWord) :=
    ⟨c, cs.takeWhile inWord, List.takeWhile_cons_of_pos hpart, h,
      fun _ hd => List.mem_takeWhile_imp hd⟩
  generalize hw : String.ofList ((c :: cs).takeWhile inWord) = w
  have hlist : (c :: cs).takeWhile inWord = w.toList := by rw [← hw, String.toList_ofList]
  have hread : word (c :: cs) = ⟨some (Token.ofWord w), w.toList, (c :: cs).dropWhile inWord⟩ := by
    rw [← hw, String.toList_ofList, word, isWordPart_eq]
  rw [hread]
  by_cases hfree : ∀ k : Keyword, k.word ≠ w
  · rw [ofWord_of_free hfree]
    exact .ident ⟨hlist ▸ hword, hfree⟩ hends
  · obtain ⟨k, rfl⟩ : ∃ k : Keyword, k.word = w := by simpa using hfree
    rw [ofWord_word]
    exact .keyword k hends

theorem word_complete {w : String} {rest : List Char} (h : IsWord w.toList)
    (hends : ahead [inWord] rest = false) :
    ∃ c cs, w.toList ++ rest = c :: cs ∧
      scan c cs = some ⟨some (Token.ofWord w), w.toList, rest⟩ := by
  obtain ⟨c, tail, hw, hc, htail⟩ := h
  have hall : ∀ d ∈ w.toList, inWord d = true := by
    rw [hw]
    exact List.forall_mem_cons.mpr ⟨inWord_of_beginsWord hc, htail⟩
  refine ⟨c, tail ++ rest, by rw [hw, List.cons_append], ?_⟩
  rw [scan_wordStart hc, word, isWordPart_eq, ← List.cons_append, ← hw, takeWhile_run hall hends,
    dropWhile_run hall hends, String.ofList_toList]

/-- **Whatever the scanner takes fits.** -/
theorem fits_of_scan {cs : List Char} {piece : Piece} (h : scan c cs = some piece) :
    piece.Fits := by
  have hother : scanOther c cs = some piece → piece.Fits := by
    intro h
    unfold scanOther at h
    split at h
    · rename_i hblank
      cases h
      exact .blank hblank
    split at h
    · rename_i hquote
      obtain ⟨q, hq, rfl⟩ := Option.map_eq_some_iff.mp h
      obtain ⟨parts, hparts, hcontent, htext⟩ := quoted_sound hq
      show Written (.str (String.ofList q.content)) (c :: q.text) q.rest
      rw [hcontent, htext]
      exact .str (by simpa using hquote) hparts
    split at h
    · rename_i hdigit
      cases h
      exact number_sound hdigit cs
    split at h
    · rename_i p hp
      cases h
      obtain rfl := Punct.symbol_of_ofChar? hp
      exact .punct p
    split at h
    · rename_i hstart
      cases h
      exact word_sound (isWordStart_eq ▸ hstart) cs
    · cases h
  unfold scan at h
  split at h
  · rename_i cs
    cases h
    have hends := ahead_dropWhile (· != '\n') ('/' :: '/' :: cs)
    exact .line (fun hd => by simpa using List.mem_takeWhile_imp hd) hends
  · obtain ⟨⟨text, rest⟩, hclose, rfl⟩ := Option.map_eq_some_iff.mp h
    obtain ⟨body, rfl, hbody⟩ := closeComment_sound hclose
    exact .block hbody
  · exact hother h

theorem scan_of_written {t : Token} {text rest : List Char} (h : Written t text rest) :
    ∃ c cs, text ++ rest = c :: cs ∧ scan c cs = some ⟨some t, text, rest⟩ := by
  have hnumber : ∀ {whole fraction exponent : List Char},
      Decimal whole fraction exponent rest →
      (whole = ['0'] → fraction ++ exponent = [] → ahead [isHexMark, inHex] rest = false) →
      ∃ c cs, whole ++ (fraction ++ exponent) ++ rest = c :: cs ∧ scan c cs =
        some ⟨some (decimalToken whole (fraction ++ exponent)), whole ++ (fraction ++ exponent),
          rest⟩ := by
    intro whole fraction exponent h hzero
    have hread := number_complete h hzero
    obtain ⟨hne, hdigits⟩ := h.whole
    obtain ⟨c, cs, rfl⟩ := List.exists_cons_of_ne_nil hne
    exact ⟨c, _, rfl, (scan_digit (hdigits c List.mem_cons_self) _).trans (congrArg some hread)⟩
  cases h with
  | keyword k hends => exact ofWord_word k ▸ word_complete (isWord_keyword k) hends
  | ident hname hends => exact ofWord_of_free hname.free ▸ word_complete hname.word hends
  | int h hzero hvalue =>
      obtain ⟨c, cs, heq, hscan⟩ := hnumber h fun hwhole _ => hzero hwhole
      simp only [List.append_nil] at heq hscan
      have hdigits : ∀ d ∈ text, inHex d = true := fun d hd => inHex_of_isDigit (h.whole.2 d hd)
      rw [← (intToken_valueOf_eq_iff 10 hdigits).mpr hvalue]
      exact ⟨c, cs, heq, hscan⟩
  | hex hmark hdigits hends hvalue =>
      rename_i mark digits
      rw [← (intToken_valueOf_eq_iff 16 hdigits.2).mpr hvalue]
      obtain ⟨hne, hrun⟩ := hdigits
      obtain ⟨d, tail, rfl⟩ := List.exists_cons_of_ne_nil hne
      refine ⟨'0', mark :: d :: (tail ++ rest), rfl, ?_⟩
      rw [scan_digit rfl, number_of_hex hmark (hrun d List.mem_cons_self), ← List.cons_append,
        takeWhile_run hrun hends, dropWhile_run hrun hends]
  | float h htail =>
      have htoken := hnumber h fun _ hnone => absurd hnone htail
      rw [decimalToken, if_neg htail] at htoken
      exact htoken
  | str hquote hparts =>
      rename_i quote parts
      refine ⟨quote, parts.flatMap StringPart.text ++ quote :: rest, by simp, ?_⟩
      rw [scan_quote hquote, quoted_complete hquote hparts]
      rfl
  | punct p => exact ⟨p.symbol, rest, rfl, scan_punct p rest⟩

theorem scan_of_trivia {text rest : List Char} (h : Trivia text rest) :
    ∃ c cs, text ++ rest = c :: cs ∧ scan c cs = some ⟨none, text, rest⟩ := by
  cases h with
  | blank h => exact ⟨_, rest, rfl, scan_blank h rest⟩
  | line hbody hends =>
      rename_i body
      refine ⟨'/', '/' :: (body ++ rest), rfl, ?_⟩
      have hline : ∀ d ∈ '/' :: '/' :: body, (d != '\n') = true := by
        refine List.forall_mem_cons.mpr ⟨by decide, List.forall_mem_cons.mpr ⟨by decide, ?_⟩⟩
        intro d hd
        rw [bne_iff_ne]
        rintro rfl
        exact hbody hd
      show some (lineComment ('/' :: '/' :: body ++ rest)) = _
      rw [lineComment, takeWhile_run hline hends, dropWhile_run hline hends]
  | block hbody =>
      rename_i body
      refine ⟨'/', '*' :: (body ++ '*' :: '/' :: rest), by simp, ?_⟩
      show (closeComment (body ++ '*' :: '/' :: rest)).map _ = _
      rw [closeComment_complete rest hbody]
      rfl

/-- **Whatever fits the scanner takes.** -/
theorem scan_of_fits {piece : Piece} (h : piece.Fits) :
    ∃ c cs, piece.text ++ piece.rest = c :: cs ∧ scan c cs = some piece := by
  obtain ⟨token?, text, rest⟩ := piece
  cases token? with
  | none => exact scan_of_trivia h
  | some t => exact scan_of_written h

end

end Schemata.Lexer
