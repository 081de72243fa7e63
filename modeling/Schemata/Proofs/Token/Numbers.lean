/-
Numbers are read whole.

A number is digits with what they have of a fraction and an exponent, or digits to the base
sixteen.  Its parts are read in order, and none of them begins like another or with a
digit, so where a part ends is told by the character that comes next.  A part that is not
read does not come next, and one that is written is read.
-/
import Mathlib.Data.List.TakeWhile
import Schemata.Proofs.Token.Written

namespace Schemata.Lexer

/-! ### Runs of characters -/

section

variable {p : Char → Bool} {run rest : List Char}

theorem ahead_dropWhile (p : Char → Bool) (cs : List Char) :
    ahead [p] (cs.dropWhile p) = false := by
  induction cs with
  | nil => rfl
  | cons c cs ih =>
      rw [List.dropWhile_cons]
      split
      · exact ih
      · simp_all

theorem takeWhile_run (h : ∀ c ∈ run, p c = true) (hends : ahead [p] rest = false) :
    (run ++ rest).takeWhile p = run := by
  rw [List.takeWhile_append_of_pos h]
  cases rest with
  | nil => simp
  | cons c cs => simp_all

theorem dropWhile_run (h : ∀ c ∈ run, p c = true) (hends : ahead [p] rest = false) :
    (run ++ rest).dropWhile p = rest := by
  rw [List.dropWhile_append_of_pos h]
  cases rest with
  | nil => rfl
  | cons c cs => simp_all

theorem run_takeWhile {c : Char} (cs : List Char) (h : p c = true) :
    Run p ((c :: cs).takeWhile p) :=
  ⟨by simp [h], fun _ hd => List.mem_takeWhile_imp hd⟩

end

/-! ### Numbers

The parts of a number are read in order, and each is either missing, because it does not
come next, or whole.
-/

section

variable {c d : Char} {cs digits rest : List Char}

theorem fraction_cons (h : d.isDigit = true) (cs : List Char) : fraction ('.' :: d :: cs) =
    ('.' :: (d :: cs).takeWhile Char.isDigit, (d :: cs).dropWhile Char.isDigit) := if_pos h

theorem fraction_of_missing (h : fractionAhead cs = false) : fraction cs = ([], cs) := by
  unfold fraction
  split
  · rw [if_neg (by simpa [fractionAhead] using h)]
  · rfl

/-- A fraction is missing or comes next, and what is left begins with no digit. -/
theorem fraction_sound (hends : ahead [Char.isDigit] cs = false) :
    ((fraction cs).1 = [] ∧ fractionAhead cs = false ∨ Fraction (fraction cs).1) ∧
      ahead [Char.isDigit] (fraction cs).2 = false := by
  cases h : fractionAhead cs with
  | false =>
      rw [fraction_of_missing h]
      exact ⟨.inl ⟨rfl, rfl⟩, hends⟩
  | true =>
      obtain ⟨point, more, rfl, hpoint, hmore⟩ := ahead_cons_iff.mp h
      obtain ⟨d, more, rfl, hd, -⟩ := ahead_cons_iff.mp hmore
      obtain rfl : point = '.' := by simpa using hpoint
      rw [fraction_cons hd]
      exact ⟨.inr (.mk (run_takeWhile more hd)), ahead_dropWhile _ _⟩

theorem fraction_complete {text : List Char} (h : Fraction text)
    (hends : ahead [Char.isDigit] rest = false) : fraction (text ++ rest) = (text, rest) := by
  obtain ⟨hne, hdigits⟩ := h
  rename_i digits
  obtain ⟨d, ds, rfl⟩ := List.exists_cons_of_ne_nil hne
  rw [List.cons_append, List.cons_append, fraction_cons (hdigits d List.mem_cons_self),
    ← List.cons_append, takeWhile_run hdigits hends, dropWhile_run hdigits hends]

theorem isSign_of_isDigit (h : d.isDigit = true) : isSign d = false := by
  have hplus : d ≠ '+' := by rintro rfl; exact absurd h (by decide)
  have hminus : d ≠ '-' := by rintro rfl; exact absurd h (by decide)
  simp [isSign, hplus, hminus]

theorem sign_of_isSign (h : isSign c = true) (cs : List Char) : sign (c :: cs) = ([c], cs) := by
  obtain rfl | rfl : c = '+' ∨ c = '-' := by simpa [isSign] using h
  · rfl
  · rfl

theorem sign_of_missing (h : ahead [isSign] cs = false) : sign cs = ([], cs) := by
  unfold sign
  split
  · simp [isSign] at h
  · simp [isSign] at h
  · rfl

theorem sign_of_digit (h : ahead [Char.isDigit] cs = true) : sign cs = ([], cs) := by
  obtain ⟨d, more, rfl, hd, -⟩ := ahead_cons_iff.mp h
  exact sign_of_missing (by simp [isSign_of_isDigit hd])

/-- An exponent comes next if its mark does and digits follow, perhaps behind a sign. -/
theorem exponentAhead_cons : exponentAhead (c :: cs) =
    (isExponentMark c && ahead [Char.isDigit] (sign cs).2) := by
  cases hsign : ahead [isSign] cs with
  | false =>
      have hnone : ahead [isSign, Char.isDigit] cs = false := by
        cases cs with
        | nil => rfl
        | cons d cs => simp_all
      simp [exponentAhead, hnone, sign_of_missing hsign]
  | true =>
      obtain ⟨d, more, rfl, hd, -⟩ := ahead_cons_iff.mp hsign
      have hdigit : d.isDigit = false := by
        by_contra hdigit
        exact absurd hd (by simp [isSign_of_isDigit (by simpa using hdigit)])
      simp [exponentAhead, sign_of_isSign hd, hd, hdigit]

theorem exponent_cons (c : Char) (cs : List Char) : exponent (c :: cs) =
    if exponentAhead (c :: cs) then
      (c :: (sign cs).1 ++ (sign cs).2.takeWhile Char.isDigit,
        (sign cs).2.dropWhile Char.isDigit)
    else ([], c :: cs) := by
  have hahead : (sign cs).2.head?.any Char.isDigit = ahead [Char.isDigit] (sign cs).2 := by
    cases (sign cs).2 <;> simp
  rw [exponent, hahead, exponentAhead_cons]
  rfl

theorem exponent_of_missing (h : exponentAhead cs = false) : exponent cs = ([], cs) := by
  cases cs with
  | nil => rfl
  | cons c cs => rw [exponent_cons, if_neg (by simp [h])]

/-- An exponent is missing or comes next, and what is left begins with no digit. -/
theorem exponent_sound (hends : ahead [Char.isDigit] cs = false) :
    ((exponent cs).1 = [] ∧ exponentAhead cs = false ∨ Exponent (exponent cs).1) ∧
      ahead [Char.isDigit] (exponent cs).2 = false := by
  cases h : exponentAhead cs with
  | false =>
      rw [exponent_of_missing h]
      exact ⟨.inl ⟨rfl, rfl⟩, hends⟩
  | true =>
      obtain ⟨mark, more, rfl⟩ : ∃ mark more, cs = mark :: more :=
        List.exists_cons_of_ne_nil (by rintro rfl; cases h)
      rw [exponent_cons, if_pos h]
      rw [exponentAhead_cons, Bool.and_eq_true] at h
      refine ⟨.inr ?_, ahead_dropWhile _ _⟩
      obtain ⟨d, later, hlater, hd, -⟩ := ahead_cons_iff.mp h.2
      have hdigits : Run Char.isDigit ((sign more).2.takeWhile Char.isDigit) := by
        rw [hlater]
        exact run_takeWhile later hd
      cases hsign : ahead [isSign] more with
      | false =>
          rw [sign_of_missing hsign] at hdigits ⊢
          exact .plain h.1 hdigits
      | true =>
          obtain ⟨c, tail, rfl, hc, -⟩ := ahead_cons_iff.mp hsign
          rw [sign_of_isSign hc] at hdigits ⊢
          exact .signed h.1 hc hdigits

theorem ahead_run {p : Char → Bool} {run : List Char} (h : Run p run) (rest : List Char) :
    ahead [p] (run ++ rest) = true := by
  obtain ⟨hne, hrun⟩ := h
  obtain ⟨c, cs, rfl⟩ := List.exists_cons_of_ne_nil hne
  simp [hrun c List.mem_cons_self]

theorem exponent_complete {text : List Char} (h : Exponent text)
    (hends : ahead [Char.isDigit] rest = false) : exponent (text ++ rest) = (text, rest) := by
  cases h with
  | plain hmark hdigits =>
      rename_i mark digits
      have hsign := sign_of_digit (ahead_run hdigits rest)
      have hnext : exponentAhead (mark :: (digits ++ rest)) = true := by
        rw [exponentAhead_cons, hsign, hmark, ahead_run hdigits rest]
        rfl
      rw [List.cons_append, exponent_cons, if_pos hnext, hsign,
        takeWhile_run hdigits.2 hends, dropWhile_run hdigits.2 hends]
      rfl
  | signed hmark hsign hdigits =>
      rename_i mark c digits
      have hsign := sign_of_isSign hsign (digits ++ rest)
      have hnext : exponentAhead (mark :: c :: (digits ++ rest)) = true := by
        rw [exponentAhead_cons, hsign, hmark, ahead_run hdigits rest]
        rfl
      rw [List.cons_append, List.cons_append, exponent_cons, if_pos hnext, hsign,
        takeWhile_run hdigits.2 hends, dropWhile_run hdigits.2 hends]
      rfl

/-! Nothing of a number but its digits begins with a digit, nor is the mark of a number to
the base sixteen, so the parts can not run into one another. -/

theorem ahead_exponent {exponent : List Char} {p : Char → Bool}
    (hmark : ∀ c, isExponentMark c = true → p c = false) (hends : ahead [p] rest = false)
    (h : exponent = [] ∨ Exponent exponent) : ahead [p] (exponent ++ rest) = false := by
  rcases h with rfl | h
  · exact hends
  · cases h <;> simp [hmark _ ‹_›]

theorem ahead_fraction {fraction : List Char} {p : Char → Bool} (hpoint : p '.' = false)
    (hends : ahead [p] rest = false) (h : fraction = [] ∨ Fraction fraction) :
    ahead [p] (fraction ++ rest) = false := by
  rcases h with rfl | h
  · exact hends
  · obtain ⟨-⟩ := h
    simp [hpoint]

theorem of_isExponentMark {p : Char → Bool} (hlower : p 'e' = false) (hupper : p 'E' = false)
    (c : Char) (h : isExponentMark c = true) : p c = false := by
  obtain rfl | rfl : c = 'e' ∨ c = 'E' := by simpa [isExponentMark] using h
  · exact hlower
  · exact hupper

/-- A decimal number is read whole. -/
theorem decimal_sound {c : Char} (h : c.isDigit = true) (cs : List Char) :
    ∃ whole fraction exponent rest, Decimal whole fraction exponent rest ∧
      decimal (c :: cs) = ⟨some (decimalToken whole (fraction ++ exponent)),
        whole ++ (fraction ++ exponent), rest⟩ := by
  have hwhole := ahead_dropWhile Char.isDigit (c :: cs)
  obtain ⟨hfraction, hmiddle⟩ := fraction_sound hwhole
  obtain ⟨hexponent, hends⟩ := exponent_sound hmiddle
  refine ⟨_, _, _, _, ⟨run_takeWhile cs h, ?_, ?_, hends⟩, rfl⟩
  · rw [exponent_append]
    refine hfraction.imp (fun ⟨hnone, hmissing⟩ => ⟨hnone, ?_⟩) id
    rwa [fraction_of_missing hmissing]
  · refine hexponent.imp (fun ⟨hnone, hmissing⟩ => ⟨hnone, ?_⟩) id
    rwa [exponent_of_missing hmissing]

theorem decimal_complete {whole fraction exponent : List Char}
    (h : Decimal whole fraction exponent rest) :
    decimal (whole ++ (fraction ++ exponent) ++ rest) =
      ⟨some (decimalToken whole (fraction ++ exponent)), whole ++ (fraction ++ exponent),
        rest⟩ := by
  have hexponent : Lexer.exponent (exponent ++ rest) = (exponent, rest) := by
    rcases h.exponent with ⟨rfl, hmissing⟩ | hexponent
    · exact exponent_of_missing hmissing
    · exact exponent_complete hexponent h.ends
  have hmiddle : ahead [Char.isDigit] (exponent ++ rest) = false :=
    ahead_exponent (of_isExponentMark (by decide) (by decide)) h.ends (h.exponent.imp (·.1) id)
  have hfraction : Lexer.fraction (fraction ++ (exponent ++ rest)) =
      (fraction, exponent ++ rest) := by
    rcases h.fraction with ⟨rfl, hmissing⟩ | hfraction
    · exact fraction_of_missing hmissing
    · exact fraction_complete hfraction hmiddle
  have hwhole : ahead [Char.isDigit] (fraction ++ (exponent ++ rest)) = false :=
    ahead_fraction (by decide) hmiddle (h.fraction.imp (·.1) id)
  rw [List.append_assoc, List.append_assoc, decimal, takeWhile_run h.whole.2 hwhole,
    dropWhile_run h.whole.2 hwhole, hfraction, hexponent]

theorem number_of_hex {mark : Char} (hmark : isHexMark mark = true)
    (hd : inHex d = true) (cs : List Char) : number ('0' :: mark :: d :: cs) =
      ⟨some (intToken (valueOf 16 ((d :: cs).takeWhile inHex))),
        '0' :: mark :: (d :: cs).takeWhile inHex, (d :: cs).dropWhile inHex⟩ := by
  rw [number, isHexDigit_eq]
  exact if_pos (by simpa [isHexMark, hd] using hmark)

theorem number_of_decimal
    (h : ∀ more, cs = '0' :: more → ahead [isHexMark, inHex] more = false) :
    number cs = decimal cs := by
  unfold number
  split
  · rw [isHexDigit_eq, if_neg (by simpa [isHexMark] using h _ rfl)]
  · rfl

/-- A number is read whole. -/
theorem number_sound {c : Char} (h : c.isDigit = true) (cs : List Char) :
    (number (c :: cs)).Fits := by
  by_cases hhex : ∃ more, c :: cs = '0' :: more ∧ ahead [isHexMark, inHex] more = true
  · obtain ⟨more, heq, hmore⟩ := hhex
    obtain ⟨mark, later, rfl, hmark, hlater⟩ := ahead_cons_iff.mp hmore
    obtain ⟨d, tail, rfl, hd, -⟩ := ahead_cons_iff.mp hlater
    have hdigits := run_takeWhile tail hd
    rw [heq, number_of_hex hmark hd]
    exact .hex hmark hdigits (ahead_dropWhile _ (d :: tail))
      ((intToken_valueOf_eq_iff 16 hdigits.2).mp rfl)
  · have hnone : ∀ more, c :: cs = '0' :: more → ahead [isHexMark, inHex] more = false :=
      fun more heq => by simpa using fun hmore => hhex ⟨more, heq, hmore⟩
    obtain ⟨whole, fraction, exponent, rest, hdecimal, hread⟩ := decimal_sound h cs
    have happend := decimal_append (c :: cs)
    rw [number_of_decimal hnone, hread]
    rw [hread] at happend
    by_cases htail : fraction ++ exponent = []
    · obtain ⟨rfl, rfl⟩ := List.append_eq_nil_iff.mp htail
      have hdigits : ∀ d ∈ whole, inHex d = true := fun d hd =>
        inHex_of_isDigit (hdecimal.whole.2 d hd)
      have hwritten : Written (intToken (valueOf 10 whole)) whole rest := by
        refine .int hdecimal (fun hzero => hnone rest ?_)
          ((intToken_valueOf_eq_iff 10 hdigits).mp rfl)
        rw [← happend, hzero]
        rfl
      rw [List.append_nil, List.append_nil]
      exact hwritten
    · have htoken : decimalToken whole (fraction ++ exponent) =
          .float (String.ofList (whole ++ (fraction ++ exponent))) := if_neg htail
      rw [htoken]
      exact .float hdecimal htail

/-- Where the first character is none of its class, the others are not looked at. -/
theorem ahead_of_first {p : Char → Bool} (ps : List (Char → Bool))
    (h : ahead [p] cs = false) : ahead (p :: ps) cs = false := by
  cases cs with
  | nil => rfl
  | cons c cs => simp_all

/-- What is written as a decimal number is none to the base sixteen. -/
theorem number_complete {whole fraction exponent : List Char}
    (h : Decimal whole fraction exponent rest)
    (hzero : whole = ['0'] → fraction ++ exponent = [] →
      ahead [isHexMark, inHex] rest = false) :
    number (whole ++ (fraction ++ exponent) ++ rest) =
      ⟨some (decimalToken whole (fraction ++ exponent)), whole ++ (fraction ++ exponent),
        rest⟩ := by
  rw [← decimal_complete h]
  refine number_of_decimal fun more heq => ?_
  obtain ⟨hne, hdigits⟩ := h.whole
  obtain ⟨zero, digits, rfl⟩ := List.exists_cons_of_ne_nil hne
  obtain ⟨rfl, rfl⟩ := List.cons.inj heq
  cases digits with
  | cons d digits =>
      have hmark : isHexMark d = false := by
        have hd : d.isDigit = true := hdigits d (by simp)
        cases hmark : isHexMark d with
        | false => rfl
        | true =>
            obtain rfl | rfl : d = 'x' ∨ d = 'X' := by simpa [isHexMark] using hmark
            · exact absurd hd (by decide)
            · exact absurd hd (by decide)
      exact ahead_of_first _ (by simp [hmark])
  | nil =>
      by_cases htail : fraction ++ exponent = []
      · show ahead _ (fraction ++ exponent ++ rest) = false
        rw [htail]
        exact hzero rfl htail
      · refine ahead_of_first _ ?_
        show ahead _ (fraction ++ exponent ++ rest) = false
        rw [List.append_assoc]
        rcases h.fraction with ⟨rfl, -⟩ | hfraction
        · rcases h.exponent with ⟨rfl, -⟩ | hexponent
          · exact absurd rfl htail
          · cases hexponent <;> simp [of_isExponentMark (p := isHexMark) rfl rfl _ ‹_›]
        · obtain ⟨-⟩ := hfraction
          rfl

end

end Schemata.Lexer
