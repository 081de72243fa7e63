/-
Strings of a TOML document.

There are four sorts: within quotes or apostrophes, on one line or on several.  Within
apostrophes every character stands for itself.  Within quotes a backslash begins an
escape; on several lines it may also stand before the end of a line, and then takes
all white space up to the next character with it.  A string on several lines drops a
line end right behind its opening, and may end with up to two quotes of its own.

Line ends are single line feeds here: a document is read with its line ends unified.
-/

namespace Schemata.Toml

/-- White space within a line. -/
def isBlank (c : Char) : Bool := c = ' ' || c = '\t'

/-- White space within a line or between lines. -/
def isGap (c : Char) : Bool := isBlank c || c = '\n'

/-- A character that may stand in a comment: any but the controls, and the tab. -/
def isPlain (c : Char) : Bool := c = '\t' || (0x20 ≤ c.toNat && c.toNat ≠ 0x7F)

/-- Drops the white space at the front of a line. -/
def skipBlanks (cs : List Char) : List Char := cs.dropWhile isBlank

theorem dropWhile_length_le (p : Char → Bool) (cs : List Char) :
    (cs.dropWhile p).length ≤ cs.length :=
  (List.dropWhile_sublist _).length_le

theorem skipBlanks_length_le (cs : List Char) : (skipBlanks cs).length ≤ cs.length :=
  dropWhile_length_le _ _

/-- The value of a digit of base sixteen, in either case. -/
def hexValue? (c : Char) : Option Nat :=
  if c.isDigit then some (c.toNat - '0'.toNat)
  else if 'a' ≤ c ∧ c ≤ 'f' then some (c.toNat - 'a'.toNat + 10)
  else if 'A' ≤ c ∧ c ≤ 'F' then some (c.toNat - 'A'.toNat + 10)
  else none

/-- The character with the code that digits of base sixteen write, if there is one. -/
def charOfDigits? (digits : List Char) : Option Char := do
  let values ← digits.mapM hexValue?
  let n := values.foldl (fun n d => n * 16 + d) 0
  if n.isValidChar then some (Char.ofNat n) else none

/-- The character a letter stands for behind a backslash. -/
def unescape? : Char → Option Char
  | 'b' => some '\x08'
  | 't' => some '\t'
  | 'n' => some '\n'
  | 'f' => some '\x0c'
  | 'r' => some '\r'
  | '"' => some '"'
  | '\\' => some '\\'
  | _ => none

/-- How many digits follow the letter of an escape by code. -/
def escapeWidth? : Char → Option Nat
  | 'u' => some 4
  | 'U' => some 8
  | _ => none

/-- The character an escape stands for, read from behind its backslash. -/
def escape? : List Char → Option (Char × List Char)
  | [] => none
  | c :: cs =>
    match escapeWidth? c with
    | some width =>
      if cs.length < width then none
      else (charOfDigits? (cs.take width)).map (·, cs.drop width)
    | none => (unescape? c).map (·, cs)

theorem escape?_shorter {cs rest : List Char} {c : Char} (h : escape? cs = some (c, rest)) :
    rest.length < cs.length := by
  unfold escape? at h
  split at h
  · simp at h
  · split at h
    · split at h
      · simp at h
      · obtain ⟨_, -, he⟩ := Option.map_eq_some_iff.mp h
        obtain ⟨-, rfl⟩ := Prod.mk.inj he
        simp only [List.length_drop, List.length_cons]
        omega
    · obtain ⟨_, -, he⟩ := Option.map_eq_some_iff.mp h
      obtain ⟨-, rfl⟩ := Prod.mk.inj he
      simp

/-- A string in quotes, from behind its opening quote. -/
def quoted? (cs : List Char) : Option (List Char × List Char) :=
  match cs with
  | [] => none
  | '"' :: rest => some ([], rest)
  | '\\' :: us =>
    match _h : escape? us with
    | none => none
    | some (c, rest) => (quoted? rest).map fun (content, rest) => (c :: content, rest)
  | c :: rest =>
    if isPlain c then (quoted? rest).map fun (content, rest) => (c :: content, rest) else none
termination_by cs.length
decreasing_by
  · have := escape?_shorter _h
    simp
    omega
  · simp

/-- A string in apostrophes, from behind its opening one. -/
def literal? : List Char → Option (List Char × List Char)
  | [] => none
  | c :: cs =>
    if c = '\'' then some ([], cs)
    else if isPlain c then (literal? cs).map fun (content, rest) => (c :: content, rest)
    else none

/-- What follows three closing quotes: up to two more belong to the content. -/
def closing (quote : Char) : List Char → List Char × List Char
  | [] => ([], [])
  | [c] => if c = quote then ([c], []) else ([], [c])
  | c :: d :: cs =>
    if c = quote then (if d = quote then ([c, d], cs) else ([c], d :: cs))
    else ([], c :: d :: cs)

/-- A string in quotes on several lines, from behind its opening quotes. -/
def quotedLines? (cs : List Char) : Option (List Char × List Char) :=
  match cs with
  | [] => none
  | '"' :: '"' :: '"' :: rest => some (closing '"' rest)
  | '\\' :: us =>
    if (skipBlanks us).head? = some '\n' then quotedLines? (us.dropWhile isGap)
    else
      match _h : escape? us with
      | none => none
      | some (c, rest) => (quotedLines? rest).map fun (content, rest) => (c :: content, rest)
  | c :: rest =>
    if isPlain c || c = '\n' then
      (quotedLines? rest).map fun (content, rest) => (c :: content, rest)
    else none
termination_by cs.length
decreasing_by
  · have := dropWhile_length_le isGap us
    simp
    omega
  · have := escape?_shorter _h
    simp
    omega
  · simp

/-- A string in apostrophes on several lines, from behind its opening ones. -/
def literalLines? : List Char → Option (List Char × List Char)
  | [] => none
  | '\'' :: '\'' :: '\'' :: rest => some (closing '\'' rest)
  | c :: rest =>
    if isPlain c || c = '\n' then
      (literalLines? rest).map fun (content, rest) => (c :: content, rest)
    else none

/-- The content behind an opening on several lines. -/
def dropLineEnd : List Char → List Char
  | '\n' :: cs => cs
  | cs => cs

/-- A string on one line, as keys may be. -/
def lineString? : List Char → Option (String × List Char)
  | '"' :: cs => (quoted? cs).map fun (content, rest) => (String.ofList content, rest)
  | '\'' :: cs => (literal? cs).map fun (content, rest) => (String.ofList content, rest)
  | _ => none

/-- A string of any sort. -/
def string? : List Char → Option (String × List Char)
  | '"' :: '"' :: '"' :: cs =>
    (quotedLines? (dropLineEnd cs)).map fun (content, rest) => (String.ofList content, rest)
  | '\'' :: '\'' :: '\'' :: cs =>
    (literalLines? (dropLineEnd cs)).map fun (content, rest) => (String.ofList content, rest)
  | cs => lineString? cs

/-! ### Every string consumes characters -/

theorem quoted?_shorter {cs rest content : List Char} (h : quoted? cs = some (content, rest)) :
    rest.length < cs.length := by
  fun_induction quoted? cs generalizing content rest with
  | case1 => simp at h
  | case2 => simp_all
  | case3 => simp at h
  | case4 us c mid he ih =>
    obtain ⟨⟨t, r⟩, hr, heq⟩ := Option.map_eq_some_iff.mp h
    obtain ⟨-, rfl⟩ := Prod.mk.inj heq
    have := ih hr
    have := escape?_shorter he
    simp
    omega
  | case5 c us _ _ _ ih =>
    obtain ⟨⟨t, r⟩, hr, heq⟩ := Option.map_eq_some_iff.mp h
    obtain ⟨-, rfl⟩ := Prod.mk.inj heq
    have := ih hr
    simp
    omega
  | case6 => simp at h

theorem literal?_shorter {cs rest content : List Char} (h : literal? cs = some (content, rest)) :
    rest.length < cs.length := by
  fun_induction literal? cs generalizing content rest with
  | case1 => simp at h
  | case2 => simp_all
  | case3 c cs _ _ ih =>
    obtain ⟨⟨t, r⟩, hr, heq⟩ := Option.map_eq_some_iff.mp h
    obtain ⟨-, rfl⟩ := Prod.mk.inj heq
    have := ih hr
    simp
    omega
  | case4 => simp at h

theorem closing_length_le (quote : Char) (cs : List Char) :
    (closing quote cs).2.length ≤ cs.length := by
  unfold closing
  split
  · simp
  · split <;> simp
  · split
    · split <;> simp
      omega
    · simp

theorem quotedLines?_shorter {cs rest content : List Char}
    (h : quotedLines? cs = some (content, rest)) : rest.length < cs.length := by
  fun_induction quotedLines? cs generalizing content rest with
  | case1 => simp at h
  | case2 us =>
    have := closing_length_le '"' us
    rw [Option.some.injEq] at h
    rw [h] at this
    simp only [List.length_cons] at this ⊢
    omega
  | case3 us _ ih =>
    have := ih h
    have := dropWhile_length_le isGap us
    simp
    omega
  | case4 => simp at h
  | case5 us _ c mid he ih =>
    obtain ⟨⟨t, r⟩, hr, heq⟩ := Option.map_eq_some_iff.mp h
    obtain ⟨-, rfl⟩ := Prod.mk.inj heq
    have := ih hr
    have := escape?_shorter he
    simp
    omega
  | case6 c us _ _ _ ih =>
    obtain ⟨⟨t, r⟩, hr, heq⟩ := Option.map_eq_some_iff.mp h
    obtain ⟨-, rfl⟩ := Prod.mk.inj heq
    have := ih hr
    simp
    omega
  | case7 => simp at h

theorem literalLines?_shorter {cs rest content : List Char}
    (h : literalLines? cs = some (content, rest)) : rest.length < cs.length := by
  fun_induction literalLines? cs generalizing content rest with
  | case1 => simp at h
  | case2 us =>
    have := closing_length_le '\'' us
    rw [Option.some.injEq] at h
    rw [h] at this
    simp only [List.length_cons] at this ⊢
    omega
  | case3 c us _ _ ih =>
    obtain ⟨⟨t, r⟩, hr, heq⟩ := Option.map_eq_some_iff.mp h
    obtain ⟨-, rfl⟩ := Prod.mk.inj heq
    have := ih hr
    simp
    omega
  | case4 => simp at h

theorem dropLineEnd_length_le (cs : List Char) : (dropLineEnd cs).length ≤ cs.length := by
  unfold dropLineEnd
  split <;> simp

theorem lineString?_shorter {cs rest : List Char} {s : String}
    (h : lineString? cs = some (s, rest)) : rest.length < cs.length := by
  unfold lineString? at h
  split at h
  · obtain ⟨⟨t, r⟩, hr, heq⟩ := Option.map_eq_some_iff.mp h
    obtain ⟨-, rfl⟩ := Prod.mk.inj heq
    have := quoted?_shorter hr
    simp
    omega
  · obtain ⟨⟨t, r⟩, hr, heq⟩ := Option.map_eq_some_iff.mp h
    obtain ⟨-, rfl⟩ := Prod.mk.inj heq
    have := literal?_shorter hr
    simp
    omega
  · simp at h

theorem string?_shorter {cs rest : List Char} {s : String} (h : string? cs = some (s, rest)) :
    rest.length < cs.length := by
  unfold string? at h
  split at h
  · rename_i us
    obtain ⟨⟨t, r⟩, hr, heq⟩ := Option.map_eq_some_iff.mp h
    obtain ⟨-, rfl⟩ := Prod.mk.inj heq
    have := quotedLines?_shorter hr
    have := dropLineEnd_length_le us
    simp
    omega
  · rename_i us
    obtain ⟨⟨t, r⟩, hr, heq⟩ := Option.map_eq_some_iff.mp h
    obtain ⟨-, rfl⟩ := Prod.mk.inj heq
    have := literalLines?_shorter hr
    have := dropLineEnd_length_le us
    simp
    omega
  · exact lineString?_shorter h

end Schemata.Toml
