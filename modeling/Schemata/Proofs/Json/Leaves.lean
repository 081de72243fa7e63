/-
Strings and numbers are read from their texts, and from nothing else.

A string goes through two stages: its text is cut into parts, and the parts are put together.
Each part is read from each of its texts, and each character is named by one part or by the pair
of units that stands for it, so the two stages are followed one after the other in either
direction.

A number needs to know what stands behind it: a digit would be taken for one of its own, and a
dot or an exponent would make it a decimal.
-/
import Mathlib.Data.List.Basic
import Mathlib.Data.List.TakeWhile
import Mathlib.Tactic.SplitIfs
import Schemata.Proofs.Json.Grammar

namespace Schemata.Json

/-! ### Parts of strings -/

section

variable {part : Part} {parts : List Part} {text cs rest : List Char} {texts : List (List Char)}

/-- A part is read from each of its texts. -/
theorem PartText.reads (h : PartText part text) (cs : List Char) :
    parts? (text ++ cs) = (parts? cs).map fun p => (part :: p.1, p.2) := by
  cases h with
  | @plain c hquote hescape hcontrol =>
      rw [List.singleton_append, parts?.eq_def]
      simp [hescape, Nat.not_lt.mpr hcontrol]
  | @letter e c h =>
      have hu : e ≠ 'u' := by
        rintro rfl
        simp [unescape?] at h
      rw [List.cons_append, List.singleton_append, parts?.eq_def]
      simp [hu, h]
  | unit h =>
      show parts? ('\\' :: 'u' :: _ :: _ :: _ :: _ :: cs) = _
      rw [parts?, h]

theorem parts?_of_texts (h : List.Forall₂ PartText parts texts) (rest : List Char) :
    parts? (texts.flatten ++ '"' :: rest) = some (parts, rest) := by
  induction h with
  | nil => simp [parts?]
  | cons hpart _ ih => rw [List.flatten_cons, List.append_assoc, hpart.reads, ih, Option.map_some]

/-- The text begins with texts of the parts and the quote that closes them. -/
def BeginsParts (cs : List Char) (parts : List Part) (rest : List Char) : Prop :=
  ∃ texts, List.Forall₂ PartText parts texts ∧ cs = texts.flatten ++ '"' :: rest

theorem BeginsParts.cons (htext : PartText part text)
    (hread : ∀ {later rest}, parts? cs = some (later, rest) → BeginsParts cs later rest)
    (h : (parts? cs).map (fun p => (part :: p.1, p.2)) = some (parts, rest)) :
    BeginsParts (text ++ cs) parts rest := by
  obtain ⟨⟨later, r⟩, hlater, he⟩ := Option.map_eq_some_iff.mp h
  obtain ⟨rfl, rfl⟩ := Prod.mk.inj he
  obtain ⟨texts, htexts, rfl⟩ := hread hlater
  exact ⟨text :: texts, .cons htext htexts, by simp⟩

/-- What is read in parts is made of their texts. -/
theorem beginsParts_of_parts? (h : parts? cs = some (parts, rest)) : BeginsParts cs parts rest := by
  fun_induction parts? cs generalizing parts rest with
  | case1 => cases h
  | case2 cs =>
      cases h
      exact ⟨[], .nil, rfl⟩
  | case3 => cases h
  | case4 a b c d cs n hn ih => exact .cons (.unit hn) ih h
  | case5 => cases h
  | case6 e cs _ c hc ih => exact .cons (.letter hc) ih h
  | case7 => cases h
  | case8 c cs hquote hunit hletter hcontrol ih =>
      have hescape : c ≠ '\\' := by
        rintro rfl
        cases cs with
        | nil => simp [parts?] at h
        | cons e cs => exact hletter e cs rfl rfl
      have hclose : c ≠ '"' := hquote
      exact .cons (.plain hclose hescape (Nat.le_of_not_lt hcontrol)) ih h

end

/-! ### Characters of strings -/

theorem toNat_cases (c : Char) : c.toNat < 0xD800 ∨ 0xDFFF < c.toNat ∧ c.toNat < 0x110000 :=
  c.valid

theorem toNat_ofNat {n : Nat} (h : n < 0xD800 ∨ 0xDFFF < n ∧ n < 0x110000) :
    (Char.ofNat n).toNat = n := by
  rw [Char.ofNat, dif_pos h]
  rfl

/-- Four digits to the base sixteen are a number below the first that needs a pair. -/
theorem unitValue?_lt {a b c d : Char} {n : Nat} (h : unitValue? a b c d = some n) :
    n < 0x10000 := by
  have hdigit : ∀ {c : Char} {n : Nat}, hexValue? c = some n → n < 16 := by
    intro c n hc
    have hle : ∀ d : Char, c ≤ d → c.toNat ≤ d.toNat := fun d hd => hd
    unfold hexValue? at hc
    split_ifs at hc with hdigit hlower hupper
    · have := Char.isDigit_iff_toNat.mp hdigit
      cases hc
      have : '0'.toNat = 48 := rfl
      have : '9'.toNat = 57 := rfl
      omega
    · cases hc
      have := hle _ hlower.2
      have : 'f'.toNat = 102 := rfl
      have : 'a'.toNat = 97 := rfl
      omega
    · cases hc
      have := hle _ hupper.2
      have : 'F'.toNat = 70 := rfl
      have : 'A'.toNat = 65 := rfl
      omega
  simp only [unitValue?, Option.bind_eq_bind, Option.bind_eq_some_iff, pure, Option.some.injEq] at h
  obtain ⟨w, hw, x, hx, y, hy, z, hz, rfl⟩ := h
  have := hdigit hw
  have := hdigit hx
  have := hdigit hy
  have := hdigit hz
  omega

/-- A unit that is no half of a pair names a character by itself. -/
theorem assemble_unit {n : Nat} (parts : List Part) (hl : isLeading n = false)
    (ht : isTrailing n = false) :
    assemble (.unit n :: parts) = (assemble parts).map (Char.ofNat n :: ·) := by
  rcases parts with _ | ⟨_ | _, _⟩ <;> simp [assemble, hl, ht]

/-- The code of a character is no half of a pair. -/
theorem not_half (c : Char) : isLeading c.toNat = false ∧ isTrailing c.toNat = false := by
  have hc := toNat_cases c
  simp only [isLeading, isTrailing, Bool.and_eq_false_iff, decide_eq_false_iff_not]
  omega

/-- A character is written in parts that name it. -/
theorem CharText.exists_parts {c : Char} {text : List Char} (h : CharText c text) :
    ∃ parts texts, List.Forall₂ PartText parts texts ∧ text = texts.flatten ∧
      ∀ later, assemble (parts ++ later) = (assemble later).map (c :: ·) := by
  cases h with
  | char h => exact ⟨[.char c], [text], .cons h .nil, by simp, fun later => rfl⟩
  | code h =>
      obtain ⟨hleading, htrailing⟩ := not_half c
      refine ⟨[.unit c.toNat], [text], .cons h .nil, by simp, fun later => ?_⟩
      rw [List.singleton_append, assemble_unit later hleading htrailing, Char.ofNat_toNat]
  | @pair high low hc hhigh hlow =>
      have hvalid := toNat_cases c
      refine ⟨_, [high, low], .cons hhigh (.cons hlow .nil), by simp, fun later => ?_⟩
      have hpair : (isLeading (0xD800 + (c.toNat - 0x10000) / 0x400) &&
          isTrailing (0xDC00 + (c.toNat - 0x10000) % 0x400)) = true := by
        simp only [isLeading, isTrailing, Bool.and_eq_true, decide_eq_true_eq]
        omega
      have hjoin : joinPair (0xD800 + (c.toNat - 0x10000) / 0x400)
          (0xDC00 + (c.toNat - 0x10000) % 0x400) = c := by
        have hcode : 0x10000 + (0xD800 + (c.toNat - 0x10000) / 0x400 - 0xD800) * 0x400 +
            (0xDC00 + (c.toNat - 0x10000) % 0x400 - 0xDC00) = c.toNat := by omega
        rw [joinPair, hcode, Char.ofNat_toNat]
      rw [List.cons_append, List.singleton_append, assemble, if_pos hpair, hjoin]

/-- Characters are written in parts that name them. -/
theorem exists_parts_of_chars {chars : List Char} {texts : List (List Char)}
    (h : List.Forall₂ CharText chars texts) :
    ∃ parts texts', List.Forall₂ PartText parts texts' ∧ texts.flatten = texts'.flatten ∧
      assemble parts = some chars := by
  induction h with
  | nil => exact ⟨[], [], .nil, rfl, rfl⟩
  | @cons c text chars texts hchar _ ih =>
      obtain ⟨parts, texts₁, hparts, rfl, hname⟩ := hchar.exists_parts
      obtain ⟨later, texts₂, hlater, hflatten, hnames⟩ := ih
      refine ⟨parts ++ later, texts₁ ++ texts₂, List.rel_append hparts hlater, ?_, ?_⟩
      · rw [List.flatten_cons, hflatten, List.flatten_append]
      · rw [hname, hnames, Option.map_some]

/-- The text is one of these characters. -/
def IsCharsText (chars text : List Char) : Prop :=
  ∃ texts, List.Forall₂ CharText chars texts ∧ text = texts.flatten

section

variable {chars : List Char} {parts : List Part} {texts : List (List Char)}

/-- A part that names a character by itself adds it to those the parts behind it name. -/
theorem IsCharsText.cons {part : Part} {c : Char}
    (hchar : ∀ {text}, PartText part text → CharText c text)
    (hlater : ∀ {chars texts}, List.Forall₂ PartText parts texts → assemble parts = some chars →
      IsCharsText chars texts.flatten)
    (h : List.Forall₂ PartText (part :: parts) texts)
    (hnames : (assemble parts).map (c :: ·) = some chars) : IsCharsText chars texts.flatten := by
  obtain ⟨text, texts, hpart, hparts, rfl⟩ := List.forall₂_cons_left_iff.mp h
  obtain ⟨later, hrest, rfl⟩ := Option.map_eq_some_iff.mp hnames
  obtain ⟨texts', htexts, hflatten⟩ := hlater hparts hrest
  exact ⟨text :: texts', .cons (hchar hpart) htexts, by simp [hflatten]⟩

/-- A unit that is no half of a pair is a text of the character it names. -/
theorem charText_ofNat {n : Nat} {text : List Char} (hhalf : ¬(isLeading n || isTrailing n) = true)
    (htext : PartText (.unit n) text) : CharText (Char.ofNat n) text := by
  have hlt : n < 0x10000 := by
    cases htext with
    | unit hn => exact unitValue?_lt hn
  simp only [isLeading, isTrailing, Bool.or_eq_true, Bool.and_eq_true, decide_eq_true_eq] at hhalf
  refine .code ?_
  rwa [toNat_ofNat (by omega)]

/-- A pair of halves is a text of the character it names. -/
theorem charText_joinPair {high low : Nat} {text text' : List Char}
    (hpair : (isLeading high && isTrailing low) = true) (hhigh : PartText (.unit high) text)
    (hlow : PartText (.unit low) text') : CharText (joinPair high low) (text ++ text') := by
  simp only [isLeading, isTrailing, Bool.and_eq_true, decide_eq_true_eq] at hpair
  have hcode : (joinPair high low).toNat = 0x10000 + (high - 0xD800) * 0x400 + (low - 0xDC00) :=
    toNat_ofNat (by omega)
  refine .pair (by omega) ?_ ?_
  · rwa [hcode, show 0xD800 + (0x10000 + (high - 0xD800) * 0x400 + (low - 0xDC00) - 0x10000) / 0x400
      = high by omega]
  · rwa [hcode, show 0xDC00 + (0x10000 + (high - 0xD800) * 0x400 + (low - 0xDC00) - 0x10000) % 0x400
      = low by omega]

/-- Parts that name characters are texts of them. -/
theorem isCharsText_of_parts (h : List.Forall₂ PartText parts texts)
    (hnames : assemble parts = some chars) : IsCharsText chars texts.flatten := by
  fun_induction assemble parts generalizing chars texts with
  | case1 =>
      cases h
      cases hnames
      exact ⟨[], .nil, rfl⟩
  | case2 c parts ih => exact .cons .char ih h hnames
  | case3 high low parts hpair ih =>
      obtain ⟨text, texts, hhigh, hrest, rfl⟩ := List.forall₂_cons_left_iff.mp h
      obtain ⟨text', texts, hlow, hparts, rfl⟩ := List.forall₂_cons_left_iff.mp hrest
      obtain ⟨later, hlater, rfl⟩ := Option.map_eq_some_iff.mp hnames
      obtain ⟨texts', htexts, hflatten⟩ := ih hparts hlater
      exact ⟨(text ++ text') :: texts', .cons (charText_joinPair hpair hhigh hlow) htexts,
        by simp [hflatten]⟩
  | case4 => cases hnames
  | case5 high low parts _ hhalf ih => exact .cons (charText_ofNat hhalf) ih h hnames
  | case6 => cases hnames
  | case7 n parts _ hhalf ih => exact .cons (charText_ofNat hhalf) ih h hnames

end

/-- **A string is read from its texts, and from nothing else.** -/
theorem text?_eq_some_iff {s? : Option String} {cs rest : List Char} :
    text? cs = some (s?, rest) ↔ ∃ text, StringText s? text ∧ cs = text ++ '"' :: rest := by
  rw [text?, Option.map_eq_some_iff]
  constructor
  · rintro ⟨⟨parts, r⟩, hparts, he⟩
    obtain ⟨rfl, rfl⟩ := Prod.mk.inj he
    obtain ⟨texts, htexts, rfl⟩ := beginsParts_of_parts? hparts
    cases hnames : assemble parts with
    | none => exact ⟨_, .halves htexts hnames, rfl⟩
    | some chars =>
        obtain ⟨texts', hchars, hflatten⟩ := isCharsText_of_parts htexts hnames
        rw [← String.toList_ofList (l := chars)] at hchars
        exact ⟨_, .chars hchars, by rw [hflatten]⟩
  · rintro ⟨text, htext, rfl⟩
    cases htext with
    | @chars s texts h =>
        obtain ⟨parts, texts', hparts, hflatten, hnames⟩ := exists_parts_of_chars h
        refine ⟨(parts, rest), ?_, ?_⟩
        · rw [hflatten, parts?_of_texts hparts]
        · simp [hnames]
    | @halves parts texts h hnone => exact ⟨(parts, rest), parts?_of_texts h rest, by simp [hnone]⟩

/-! ### Numbers -/

/-- No digit comes next. -/
def NoDigit (rest : List Char) : Prop := ∀ c ∈ rest.head?, c.isDigit = false

/-- What may stand behind a number: it neither adds a digit to it nor makes it a decimal. -/
def EndsNumber (rest : List Char) : Prop :=
  ∀ c ∈ rest.head?, c.isDigit = false ∧ c ≠ '.' ∧ c ≠ 'e' ∧ c ≠ 'E'

theorem EndsNumber.noDigit {rest : List Char} (h : EndsNumber rest) : NoDigit rest :=
  fun c hc => (h c hc).1

section

variable {cs ds rest : List Char}

theorem noDigit_dropWhile (cs : List Char) : NoDigit (cs.dropWhile Char.isDigit) := by
  intro c hc
  have := List.head?_dropWhile_not Char.isDigit cs
  rw [Option.mem_def.mp hc] at this
  simpa using this

/-- Digits are read up to the first character that is none. -/
theorem digits?_eq_some_iff :
    digits? cs = some (ds, rest) ↔ Digits ds ∧ NoDigit rest ∧ cs = ds ++ rest := by
  unfold digits?
  constructor
  · intro h
    split_ifs at h with hhead
    cases h
    refine ⟨⟨?_, fun c hc => List.mem_takeWhile_imp hc⟩, noDigit_dropWhile cs,
      (List.takeWhile_append_dropWhile).symm⟩
    cases cs with
    | nil => cases hhead
    | cons c cs => simp [show c.isDigit = true from by simpa using hhead]
  · rintro ⟨⟨hne, hds⟩, hrest, rfl⟩
    have hhead : (ds ++ rest).head?.any Char.isDigit = true := by
      obtain ⟨d, more, rfl⟩ := List.exists_cons_of_ne_nil hne
      simpa using hds d List.mem_cons_self
    have hends : rest.takeWhile Char.isDigit = [] ∧ rest.dropWhile Char.isDigit = rest := by
      cases rest with
      | nil => exact ⟨rfl, rfl⟩
      | cons c cs => simp [hrest c rfl]
    rw [if_pos hhead, List.takeWhile_append_of_pos hds, List.dropWhile_append_of_pos hds,
      hends.1, hends.2, List.append_nil]

theorem whole?_eq_some_iff :
    whole? cs = some (ds, rest) ↔ WholePart ds ∧ NoDigit rest ∧ cs = ds ++ rest := by
  by_cases hzero : cs.head? = some '0'
  · obtain ⟨more, rfl⟩ := List.head?_eq_some_iff.mp hzero
    have hdigits : Digits ['0'] := ⟨by simp, by simp⟩
    rw [whole?]
    constructor
    · intro h
      split_ifs at h with hhead
      cases h
      refine ⟨⟨hdigits, fun _ => rfl⟩, fun c hc => ?_, rfl⟩
      rw [Option.mem_def.mp hc] at hhead
      simpa using hhead
    · rintro ⟨⟨⟨hne, -⟩, honly⟩, hrest, heq⟩
      -- What begins with a zero is the zero.
      obtain ⟨d, tail, rfl⟩ := List.exists_cons_of_ne_nil hne
      obtain ⟨rfl, rfl⟩ := List.cons.inj heq
      obtain ⟨-, rfl⟩ := List.cons.inj (honly rfl)
      have hhead : ¬rest.head?.any Char.isDigit = true := by
        cases rest with
        | nil => simp
        | cons c cs => simp [hrest c rfl]
      exact if_neg hhead
  · have hwhole : whole? cs = digits? cs := by
      unfold whole?
      split
      · exact absurd rfl hzero
      · rfl
    rw [hwhole, digits?_eq_some_iff]
    constructor
    · rintro ⟨hdigits, hrest, rfl⟩
      refine ⟨⟨hdigits, fun hhead => absurd ?_ hzero⟩, hrest, rfl⟩
      rw [List.head?_append_of_ne_nil _ hdigits.1, hhead]
    · rintro ⟨⟨hdigits, -⟩, hrest, rfl⟩
      exact ⟨hdigits, hrest, rfl⟩

end

section

variable {negative : Bool} {cs whole fraction exponent rest : List Char} {v : Json}

theorem FractionPart.noDigit (h : FractionPart fraction) (hrest : NoDigit rest) :
    NoDigit (fraction ++ rest) := by
  cases h with
  | missing => exact hrest
  | digits _ =>
      rintro c ⟨⟩
      rfl

/-- An exponent neither begins with a digit nor with a point. -/
theorem ExponentPart.apart (h : ExponentPart exponent) (hrest : EndsNumber rest) :
    NoDigit (exponent ++ rest) ∧ (exponent ++ rest).head? ≠ some '.' := by
  cases h with
  | missing => exact ⟨hrest.noDigit, fun hpoint => (hrest '.' hpoint).2.1 rfl⟩
  | digits hmark hsign hds =>
      rcases hmark with rfl | rfl
      all_goals
        refine ⟨?_, by simp⟩
        rintro c ⟨⟩
        rfl

theorem fraction?_append (h : FractionPart fraction) (hdigit : NoDigit rest)
    (hpoint : rest.head? ≠ some '.') : fraction? (fraction ++ rest) = some (fraction, rest) := by
  cases h with
  | missing =>
      rw [List.nil_append]
      unfold fraction?
      split
      · exact absurd rfl hpoint
      · rfl
  | digits hds =>
      rw [List.cons_append, fraction?, digits?_eq_some_iff.mpr ⟨hds, hdigit, rfl⟩, Option.map_some]

theorem exists_fraction_of_fraction? (h : fraction? cs = some (fraction, rest)) :
    FractionPart fraction ∧ cs = fraction ++ rest := by
  unfold fraction? at h
  split at h
  · obtain ⟨⟨ds, r⟩, hread, he⟩ := Option.map_eq_some_iff.mp h
    obtain ⟨rfl, rfl⟩ := Prod.mk.inj he
    obtain ⟨hds, -, rfl⟩ := digits?_eq_some_iff.mp hread
    exact ⟨.digits hds, rfl⟩
  · cases h
    exact ⟨.missing, rfl⟩

theorem exponentSign_append {sign ds : List Char}
    (hsign : sign = [] ∨ sign = ['+'] ∨ sign = ['-']) (hds : Digits ds) (rest : List Char) :
    exponentSign (sign ++ (ds ++ rest)) = (sign, ds ++ rest) := by
  rcases hsign with rfl | rfl | rfl
  · obtain ⟨d, ds, rfl⟩ := List.exists_cons_of_ne_nil hds.1
    have hdigit := hds.2 d List.mem_cons_self
    unfold exponentSign
    split <;> simp_all
  · rfl
  · rfl

theorem exists_sign (cs : List Char) : ∃ sign unsigned,
    (sign = [] ∨ sign = ['+'] ∨ sign = ['-']) ∧ exponentSign cs = (sign, unsigned) ∧
      cs = sign ++ unsigned := by
  unfold exponentSign
  split <;> simp

theorem exponent?_append (h : ExponentPart exponent) (hrest : EndsNumber rest) :
    exponent? (exponent ++ rest) = some (exponent, rest) := by
  cases h with
  | missing =>
      cases rest with
      | nil => rfl
      | cons c cs =>
          obtain ⟨-, -, he, hE⟩ := hrest c rfl
          simp [exponent?, he, hE]
  | @digits mark sign ds hmark hsign hds =>
      have hread := digits?_eq_some_iff.mpr ⟨hds, hrest.noDigit, rfl⟩
      rw [List.cons_append, List.append_assoc, exponent?, if_pos (by simpa using hmark),
        exponentSign_append hsign hds, hread]
      rfl

theorem exists_exponent_of_exponent? (h : exponent? cs = some (exponent, rest)) :
    ExponentPart exponent ∧ cs = exponent ++ rest := by
  cases cs with
  | nil =>
      cases h
      exact ⟨.missing, rfl⟩
  | cons mark cs =>
      obtain ⟨sign, unsigned, hsign, heq, rfl⟩ := exists_sign cs
      rw [exponent?, heq] at h
      split_ifs at h with hmark
      · obtain ⟨⟨ds, r⟩, hread, he⟩ := Option.map_eq_some_iff.mp h
        obtain ⟨rfl, rfl⟩ := Prod.mk.inj he
        obtain ⟨hds, -, rfl⟩ := digits?_eq_some_iff.mp hread
        exact ⟨.digits (by simpa using hmark) hsign hds, by simp⟩
      · cases h
        exact ⟨.missing, rfl⟩

/-- A number is read from its text where its text ends. -/
theorem unsigned?_append (hwhole : WholePart whole) (hfraction : FractionPart fraction)
    (hexponent : ExponentPart exponent) (hrest : EndsNumber rest) :
    unsigned? negative (whole ++ (fraction ++ (exponent ++ rest))) =
      some (numberOf negative whole (fraction ++ exponent), rest) := by
  obtain ⟨hdigit, hpoint⟩ := hexponent.apart hrest
  have hread := whole?_eq_some_iff.mpr ⟨hwhole, hfraction.noDigit hdigit, rfl⟩
  simp [unsigned?, hread, fraction?_append hfraction hdigit hpoint,
    exponent?_append hexponent hrest]

theorem exists_number_of_unsigned? (h : unsigned? negative cs = some (v, rest)) :
    ∃ whole fraction exponent, WholePart whole ∧ FractionPart fraction ∧ ExponentPart exponent ∧
      v = numberOf negative whole (fraction ++ exponent) ∧
        cs = whole ++ (fraction ++ exponent) ++ rest := by
  simp only [unsigned?, Option.bind_eq_bind, Option.bind_eq_some_iff, Prod.exists, pure,
    Option.some.injEq, Prod.mk.injEq] at h
  obtain ⟨whole, _, hw, fraction, _, hf, exponent, _, he, rfl, rfl⟩ := h
  obtain ⟨hwhole, -, rfl⟩ := whole?_eq_some_iff.mp hw
  obtain ⟨hfraction, rfl⟩ := exists_fraction_of_fraction? hf
  obtain ⟨hexponent, rfl⟩ := exists_exponent_of_exponent? he
  exact ⟨whole, fraction, exponent, hwhole, hfraction, hexponent, rfl, by simp⟩

theorem WholePart.exists_cons (h : WholePart whole) :
    ∃ d ds, whole = d :: ds ∧ d.isDigit = true := by
  obtain ⟨d, ds, rfl⟩ := List.exists_cons_of_ne_nil h.1.1
  exact ⟨d, ds, rfl, h.1.2 d List.mem_cons_self⟩

theorem number?_append (hwhole : WholePart whole) (hfraction : FractionPart fraction)
    (hexponent : ExponentPart exponent) (hrest : EndsNumber rest) :
    number? ((if negative then ['-'] else []) ++ (whole ++ (fraction ++ exponent)) ++ rest) =
      some (numberOf negative whole (fraction ++ exponent), rest) := by
  rw [← unsigned?_append hwhole hfraction hexponent hrest]
  cases negative with
  | true => simp [number?]
  | false =>
      obtain ⟨d, ds, rfl, hdigit⟩ := hwhole.exists_cons
      unfold number?
      split <;> simp_all

theorem exists_number_of_number? (h : number? cs = some (v, rest)) :
    ∃ text, Spells v text ∧ cs = text ++ rest := by
  unfold number? at h
  split at h
  all_goals
    obtain ⟨whole, fraction, exponent, hwhole, hfraction, hexponent, rfl, rfl⟩ :=
      exists_number_of_unsigned? h
  · exact ⟨_, @Spells.number true _ _ _ hwhole hfraction hexponent, rfl⟩
  · exact ⟨_, @Spells.number false _ _ _ hwhole hfraction hexponent, rfl⟩

end

end Schemata.Json
