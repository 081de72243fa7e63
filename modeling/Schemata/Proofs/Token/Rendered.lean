/-
Lexing undoes rendering.

A token is rendered as a text that is a lexeme for it, and a lexeme that ends its text is
one before any filler, because it looks ahead for nothing a filler begins with.  So a list
of tokens, each rendered and set apart from the next, is a text cut into segments at once:
the lexemes that were put in and the trivia between them.
-/
import Schemata.Proofs.Token.Layout

namespace Schemata

open Lexer Text

/-! ### Rendering -/

/-- The part of a string in double quotes that stands for the character. -/
def Lexer.StringPart.ofChar : Char → StringPart
  | '"' => .escape '"'
  | '\\' => .escape '\\'
  | '\n' => .escape 'n'
  | c => .plain c

namespace Token

/-- A token that a text can have: an identifier is a word that is not reserved, an integer is
not below zero, and a float is digits with a fraction or an exponent.  A string may have
any content. -/
inductive Renderable : Token → Prop
  | keyword (k : Keyword) : Renderable (.keyword k)
  | ident {name : String} (h : IsIdentifier name) : Renderable (.ident name)
  | int {n : Int64} (h : 0 ≤ n.toInt) : Renderable (.int n)
  | float {whole fraction exponent : List Char} (hwhole : Run Char.isDigit whole)
      (hfraction : fraction = [] ∨ Fraction fraction)
      (hexponent : exponent = [] ∨ Exponent exponent) (htail : fraction ++ exponent ≠ []) :
      Renderable (.float (String.ofList (whole ++ (fraction ++ exponent))))
  | str (content : String) : Renderable (.str content)
  | punct (p : Punct) : Renderable (.punct p)

/-- The token as a text writes it: an integer by its decimal digits, and a string in double
quotes, with a backslash before a quote or a backslash and the letter of a line feed behind
one. -/
def source : Token → List Char
  | keyword k => k.word.toList
  | ident name => name.toList
  | int n => Nat.toDigits 10 n.toInt.toNat
  | float digits => digits.toList
  | str content => '"' :: (content.toList.flatMap (fun c => (StringPart.ofChar c).text) ++ ['"'])
  | punct p => [p.symbol]
  | eof => []

end Token

/-- What sets two tokens apart: white space and comments that are closed, and some of them. -/
def Lexer.Gap (cs : List Char) : Prop :=
  ∃ fillers : List (List Char), (∀ f ∈ fillers, Filler f) ∧ fillers.flatten = cs ∧ cs ≠ []

/-- The text renders the tokens, each set apart from the next. -/
inductive Rendering : List Token → List Char → Prop
  | none : Rendering [] []
  | last (t : Token) : Rendering [t] t.source
  | cons (t : Token) {next : Token} {later : List Token} {gap text : List Char} (hgap : Gap gap)
      (hlater : Rendering (next :: later) text) :
      Rendering (t :: next :: later) (t.source ++ (gap ++ text))

namespace Lexer

/-! ### A token by itself -/

theorem StringPart.value_ofChar (c : Char) : (ofChar c).value = [c] := by
  unfold ofChar
  split <;> rfl

theorem StringPart.fitsIn_ofChar (c : Char) : (ofChar c).FitsIn '"' := by
  unfold ofChar
  split
  · trivial
  · trivial
  · trivial
  · rename_i hquote hescape hline
    exact ⟨hquote, hescape, hline⟩

theorem isDigit_toDigits (n : Nat) : ∀ c ∈ Nat.toDigits 10 n, c.isDigit = true :=
  fun _ => Nat.isDigit_of_mem_toDigits (by decide) (by decide)

/-- Decimal digits are worth the number they are made of. -/
theorem numeral_toDigits (n : Nat) : numeral 10 (Nat.toDigits 10 n) = n := by
  have hread := Nat.ofDigitChars_ten_toDigits (n := n)
  rw [Nat.ofDigitChars_eq_foldl] at hread
  rw [← valueOf_eq_numeral 10 fun c hc => inHex_of_isDigit (isDigit_toDigits n c hc)]
  conv_rhs => rw [← hread]
  refine List.foldl_ext _ _ _ fun m c hc => ?_
  rw [digitValue, if_pos (isDigit_toDigits n c hc), Nat.mul_comm]

/-- A rendered token is a lexeme at the end of a text. -/
theorem written_source {t : Token} (h : t.Renderable) : Written t t.source [] := by
  cases h with
  | keyword k => exact .keyword k rfl
  | ident h => exact .ident h rfl
  | int h =>
      rename_i n
      have hrun : Run Char.isDigit (Nat.toDigits 10 n.toInt.toNat) :=
        ⟨Nat.toDigits_ne_nil, isDigit_toDigits _⟩
      have hdecimal : Decimal (Nat.toDigits 10 n.toInt.toNat) [] [] [] :=
        ⟨hrun, .inl ⟨rfl, rfl⟩, .inl ⟨rfl, rfl⟩, rfl⟩
      have hvalue : Holds n (numeral 10 (Nat.toDigits 10 n.toInt.toNat)) := by
        have hhigh := n.toInt_lt
        rw [numeral_toDigits, Holds]
        omega
      exact .int hdecimal (fun _ => rfl) hvalue
  | float hwhole hfraction hexponent htail =>
      rename_i whole fraction exponent
      rw [Token.source, String.toList_ofList]
      refine .float ⟨hwhole, ?_, ?_, rfl⟩ htail
      · -- A missing fraction does not come next, for an exponent begins with no point.
        have hpoint : ahead [(· == '.')] (exponent ++ []) = false :=
          ahead_exponent (of_isExponentMark rfl rfl) rfl hexponent
        exact hfraction.imp_left fun hnone => ⟨hnone, ahead_of_first _ hpoint⟩
      · exact hexponent.imp_left fun hnone => ⟨hnone, rfl⟩
  | str content =>
      have hwritten : Written _ _ [] := .str (.inl rfl)
        (List.forall_mem_map.mpr fun c (_ : c ∈ content.toList) => StringPart.fitsIn_ofChar c)
      simpa [Token.source, List.flatMap_map, StringPart.value_ofChar] using hwritten
  | punct p => exact .punct p

/-! ### Tokens set apart -/

theorem Filler.unseen {cs : List Char} (h : Filler cs) : Unseen cs := by
  intro c hc
  obtain ⟨more, rfl⟩ := List.head?_eq_some_iff.mp hc
  exact h.separates

theorem Filler.gap {cs : List Char} (h : Filler cs) (hne : cs ≠ []) : Gap cs :=
  ⟨[cs], by simpa using h, by simp, hne⟩

theorem Gap.append {gap gap' : List Char} (h : Gap gap) (h' : Gap gap') : Gap (gap ++ gap') := by
  obtain ⟨fillers, hfillers, rfl, hne⟩ := h
  obtain ⟨fillers', hfillers', rfl, -⟩ := h'
  refine ⟨fillers ++ fillers', List.forall_mem_append.mpr ⟨hfillers, hfillers'⟩, by simp, ?_⟩
  exact fun hnil => hne (List.append_eq_nil_iff.mp hnil).1

/-- No lexeme looks into a gap. -/
theorem Gap.unseen {gap : List Char} (h : Gap gap) (rest : List Char) : Unseen (gap ++ rest) := by
  obtain ⟨fillers, hfillers, rfl, hne⟩ := h
  intro c hc
  rw [List.head?_append_of_ne_nil _ hne] at hc
  induction fillers with
  | nil => cases hc
  | cons f fillers ih =>
      obtain ⟨hf, hlater⟩ := List.forall_mem_cons.mp hfillers
      cases f with
      | nil => exact ih hlater hne hc
      | cons d f => exact hf.unseen c hc

/-- A lexeme at the end of a text is one wherever nothing looks into what comes behind it. -/
theorem Written.goOn {t : Token} {text u : List Char} (hu : Unseen u) (h : Written t text []) :
    Written t text u := by
  have hend : Written t text ([] ++ []) := h
  exact hend.insert hu

/-- A gap is cut into segments that stand for no token. -/
theorem Gap.exists_segmented {gap : List Char} (h : Gap gap) {ss : List Segment}
    (hss : Segmented ss) : ∃ gs, textOf gs = gap ∧ Segmented (gs ++ ss) ∧
      ∀ s ∈ gs, s.token? = none := by
  obtain ⟨fillers, hfillers, rfl, -⟩ := h
  induction fillers with
  | nil => exact ⟨[], rfl, hss, by simp⟩
  | cons f fillers ih =>
      obtain ⟨hf, hfillers⟩ := List.forall_mem_cons.mp hfillers
      obtain ⟨gs, htext, hgs, hnone⟩ := ih hfillers
      obtain ⟨fs, hown, hfs, hempty⟩ := hf.exists_segmented hgs
      refine ⟨fs ++ gs, by simp [hown, htext], by rwa [List.append_assoc], ?_⟩
      exact List.forall_mem_append.mpr ⟨hempty, hnone⟩

/-- A rendering is cut into segments, and the lexemes among them are what was rendered. -/
theorem exists_segmented_of_rendering {ts : List Token} {text : List Char}
    (hts : ∀ t ∈ ts, t.Renderable) (h : Rendering ts text) :
    ∃ ss, Segmented ss ∧ textOf ss = text ∧ ss.filterMap (·.token?) = ts := by
  induction h with
  | none => exact ⟨[], trivial, rfl, rfl⟩
  | last t =>
      have hfits : Segment.Fits ⟨some t, t.source⟩ [] := written_source (hts t (by simp))
      exact ⟨[⟨some t, t.source⟩], ⟨hfits, trivial⟩, by simp, rfl⟩
  | cons t hgap hlater ih =>
      obtain ⟨ht, hts⟩ := List.forall_mem_cons.mp hts
      obtain ⟨ss, hss, rfl, hkept⟩ := ih hts
      obtain ⟨gs, rfl, hgs, hnone⟩ := hgap.exists_segmented hss
      have hfits : Segment.Fits ⟨some t, t.source⟩ (textOf (gs ++ ss)) := by
        rw [textOf_append]
        exact (written_source ht).goOn (hgap.unseen _)
      refine ⟨⟨some t, t.source⟩ :: (gs ++ ss), ⟨hfits, hgs⟩, by simp, ?_⟩
      simp [List.filterMap_eq_nil_iff.mpr hnone, hkept]

end Lexer

/-- **Lexing undoes rendering.**  Tokens that are rendered, each set apart from the next by
white space or closed comments, are lexed to exactly those tokens and the end of input. -/
theorem lex_rendering {ts : List Token} {text : List Char} (hts : ∀ t ∈ ts, t.Renderable)
    (h : Rendering ts text) : ∃ located, lex (String.ofList text) = .ok located ∧
      located.map (·.token) = ts ++ [.eof] := by
  obtain ⟨ss, hss, rfl, rfl⟩ := exists_segmented_of_rendering hts h
  refine ⟨_, lex_eq_ok_iff.mpr ⟨ss, hss, by simp, rfl⟩, ?_⟩
  rw [List.map_append, tokens_lexemes]
  rfl

/-- A zero and a word that would be a number to the base sixteen if they were not apart, the
largest integer, a float, and a string with each character that is escaped. -/
def assortment : List Token :=
  [.int 0, .ident "xF", .int .maxValue, .float "0.5e-7", .str "\n\"\\é"]

/-- A rendering of them, with a gap of each kind. -/
def assorted : List Char :=
  "0/**/xF //\n9223372036854775807\t0.5e-7 \"\\n\\\"\\\\é\"".toList

theorem lex_rendering_assortment :
    (∀ t ∈ assortment, t.Renderable) ∧ Rendering assortment assorted ∧
    ∃ located, lex (String.ofList assorted) = .ok located ∧
      located.map (·.token) = assortment ++ [.eof] := by
  have hfree : ∀ k : Keyword, k.word ≠ "xF" := by
    intro k hk
    have hnone : Keyword.ofWord? "xF" = none := by decide
    rw [← hk, Keyword.ofWord?_word] at hnone
    cases hnone
  have hword : IsWord "xF".toList :=
    ⟨'x', ['F'], rfl, rfl, List.forall_mem_singleton.mpr rfl⟩
  have hdigit : ∀ c, c.isDigit = true → Run Char.isDigit [c] := fun c hc =>
    ⟨List.cons_ne_nil _ _, List.forall_mem_singleton.mpr hc⟩
  have hfraction : Fraction ['.', '5'] := .mk (hdigit '5' rfl)
  have hexponent : Exponent ['e', '-', '7'] := .signed (by decide) (by decide) (hdigit '7' rfl)
  have hwhole : Run Char.isDigit ['0'] := hdigit '0' rfl
  have hfloat : Token.Renderable (.float "0.5e-7") :=
    .float hwhole (.inr hfraction) (.inr hexponent) (by simp)
  have htokens : ∀ t ∈ assortment, t.Renderable := by
    simp only [assortment, List.forall_mem_cons]
    exact ⟨.int (by decide), .ident ⟨hword, hfree⟩, .int (by decide), hfloat, .str _, nofun⟩
  have hblank : ∀ c, isBlank c = true → Gap [c] := fun c hc =>
    Filler.gap (.blanks (by simpa using hc)) (by simp)
  have hblock : Gap ['/', '*', '*', '/'] := (@Filler.block [] (by decide)).gap (by simp)
  have hline : Gap ['/', '/', '\n'] := (@Filler.line [] (by simp)).gap (by simp)
  have htext : Rendering assortment assorted :=
    .cons _ hblock (.cons _ ((hblank ' ' (by decide)).append hline)
      (.cons _ (hblank '\t' (by decide)) (.cons _ (hblank ' ' (by decide)) (.last _))))
  exact ⟨htokens, htext, lex_rendering htokens htext⟩

end Schemata
