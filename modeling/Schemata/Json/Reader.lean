/-
Reading JSON.

`Json.read?` reads a whole text as one value, or nothing: white space may stand
between the parts, and nothing but white space after the value.  The depth of a value
is not limited here.

The three readers of values, elements and entries call one another, always on fewer
characters or, from a container to its first part, on the same ones in a fixed order.
They hand back the proof that characters were consumed along with what they read.
-/
import Schemata.Json

namespace Schemata.Json

/-! ### Strings -/

/-- A part of a string as it is written: a character, or a code unit by its digits. -/
inductive Part where
  | char (c : Char)
  | unit (n : Nat)
deriving DecidableEq, Repr

/-- The value of a digit of base sixteen, in either case. -/
def hexValue? (c : Char) : Option Nat :=
  if c.isDigit then some (c.toNat - '0'.toNat)
  else if 'a' ≤ c ∧ c ≤ 'f' then some (c.toNat - 'a'.toNat + 10)
  else if 'A' ≤ c ∧ c ≤ 'F' then some (c.toNat - 'A'.toNat + 10)
  else none

/-- The value of four digits of base sixteen. -/
def unitValue? (a b c d : Char) : Option Nat := do
  return (((← hexValue? a) * 16 + (← hexValue? b)) * 16 + (← hexValue? c)) * 16 + (← hexValue? d)

/-- The character a letter stands for behind a backslash. -/
def unescape? : Char → Option Char
  | '"' => some '"'
  | '\\' => some '\\'
  | '/' => some '/'
  | 'b' => some '\x08'
  | 'f' => some '\x0c'
  | 'n' => some '\n'
  | 'r' => some '\r'
  | 't' => some '\t'
  | _ => none

/-- The parts of a string from behind its opening quote, and what follows its closing
one. -/
def parts? : List Char → Option (List Part × List Char)
  | [] => none
  | '"' :: cs => some ([], cs)
  | '\\' :: 'u' :: a :: b :: c :: d :: cs =>
    match unitValue? a b c d with
    | none => none
    | some n => (parts? cs).map fun (parts, rest) => (.unit n :: parts, rest)
  | '\\' :: e :: cs =>
    match unescape? e with
    | none => none
    | some c => (parts? cs).map fun (parts, rest) => (.char c :: parts, rest)
  | c :: cs =>
    if c.toNat < 0x20 then none
    else (parts? cs).map fun (parts, rest) => (.char c :: parts, rest)

/-- The first half of a surrogate pair. -/
def isLeading (n : Nat) : Bool := 0xD800 ≤ n && n < 0xDC00

/-- The second half of a surrogate pair. -/
def isTrailing (n : Nat) : Bool := 0xDC00 ≤ n && n < 0xE000

/-- The character a surrogate pair names. -/
def joinPair (high low : Nat) : Char :=
  Char.ofNat (0x10000 + (high - 0xD800) * 0x400 + (low - 0xDC00))

/-- The characters the parts name.  Half a pair names none. -/
def assemble : List Part → Option (List Char)
  | [] => some []
  | .char c :: parts => (assemble parts).map (c :: ·)
  | .unit high :: .unit low :: parts =>
    if isLeading high && isTrailing low then (assemble parts).map (joinPair high low :: ·)
    else if isLeading high || isTrailing high then none
    else (assemble (.unit low :: parts)).map (Char.ofNat high :: ·)
  | .unit n :: parts =>
    if isLeading n || isTrailing n then none
    else (assemble parts).map (Char.ofNat n :: ·)

/-- A string from behind its opening quote, and what follows its closing one. -/
def text? (cs : List Char) : Option (Option String × List Char) :=
  (parts? cs).map fun (parts, rest) => ((assemble parts).map String.ofList, rest)

/-! ### Numbers -/

/-- The digits at the front, at least one, and what follows them. -/
def digits? (cs : List Char) : Option (List Char × List Char) :=
  if cs.head?.any Char.isDigit then some (cs.takeWhile Char.isDigit, cs.dropWhile Char.isDigit)
  else none

/-- The whole part of a number: no zero stands before another digit. -/
def whole? : List Char → Option (List Char × List Char)
  | '0' :: cs => if cs.head?.any Char.isDigit then none else some (['0'], cs)
  | cs => digits? cs

/-- A fraction, perhaps empty. -/
def fraction? : List Char → Option (List Char × List Char)
  | '.' :: cs => (digits? cs).map fun (digits, rest) => ('.' :: digits, rest)
  | cs => some ([], cs)

/-- The sign of an exponent, perhaps empty. -/
def exponentSign : List Char → List Char × List Char
  | '+' :: cs => (['+'], cs)
  | '-' :: cs => (['-'], cs)
  | cs => ([], cs)

/-- An exponent, perhaps empty. -/
def exponent? : List Char → Option (List Char × List Char)
  | [] => some ([], [])
  | e :: cs =>
    if e = 'e' || e = 'E' then
      (digits? (exponentSign cs).2).map fun (digits, rest) =>
        (e :: (exponentSign cs).1 ++ digits, rest)
    else some ([], e :: cs)

/-- The number that decimal digits write. -/
def natOfDigits (digits : List Char) : Nat :=
  digits.foldl (fun n d => n * 10 + (d.toNat - '0'.toNat)) 0

/-- The value of a number with its parts as written: an integer if it has neither
fraction nor exponent and is no negative zero. -/
def numberOf (negative : Bool) (whole tail : List Char) : Json :=
  if tail = [] ∧ ¬(negative = true ∧ natOfDigits whole = 0) then
    .integer (if negative then -(natOfDigits whole : Int) else natOfDigits whole)
  else .decimal (String.ofList ((if negative then ['-'] else []) ++ whole ++ tail))

/-- The number at the front, after its sign. -/
def unsigned? (negative : Bool) (cs : List Char) : Option (Json × List Char) := do
  let (whole, rest) ← whole? cs
  let (frac, rest) ← fraction? rest
  let (exp, rest) ← exponent? rest
  return (numberOf negative whole (frac ++ exp), rest)

/-- The number at the front. -/
def number? : List Char → Option (Json × List Char)
  | '-' :: cs => unsigned? true cs
  | cs => unsigned? false cs

/-! ### Values without parts -/

/-- The text after `word`, if the text begins with it. -/
def afterWord? : (word cs : List Char) → Option (List Char)
  | [], cs => some cs
  | w :: ws, c :: cs => if w = c then afterWord? ws cs else none
  | _ :: _, [] => none

/-- A value that is no container, at the front of a text without leading blanks. -/
def scalar? : List Char → Option (Json × List Char)
  | '"' :: cs => (text? cs).map fun (s?, rest) => (.string s?, rest)
  | 'n' :: cs => (afterWord? ['u', 'l', 'l'] cs).map (.null, ·)
  | 't' :: cs => (afterWord? ['r', 'u', 'e'] cs).map (.bool true, ·)
  | 'f' :: cs => (afterWord? ['a', 'l', 's', 'e'] cs).map (.bool false, ·)
  | cs => number? cs

/-- Drops the white space at the front. -/
def skipBlanks (cs : List Char) : List Char := cs.dropWhile isBlank

/-! ### Every reader consumes characters -/

theorem skipBlanks_length_le (cs : List Char) : (skipBlanks cs).length ≤ cs.length :=
  (List.dropWhile_sublist _).length_le

theorem length_of_skipBlanks {cs rest : List Char} {c : Char} (h : skipBlanks cs = c :: rest) :
    rest.length < cs.length := by
  have := skipBlanks_length_le cs
  rw [h, List.length_cons] at this
  omega

theorem parts?_shorter {cs rest : List Char} {parts : List Part}
    (h : parts? cs = some (parts, rest)) : rest.length < cs.length := by
  have cons : ∀ {us : List Char} {r : List Part × List Char} {f : List Part → List Part},
      (∀ {parts rest}, parts? us = some (parts, rest) → rest.length < us.length) →
      (parts? us).map (fun (ps, r) => (f ps, r)) = some r → r.2.length < us.length := by
    intro us r f ih hr
    obtain ⟨⟨ps, r⟩, hp, rfl⟩ := Option.map_eq_some_iff.mp hr
    exact ih hp
  fun_induction parts? cs generalizing parts rest with
  | case1 => simp at h
  | case2 => simp_all
  | case3 => simp at h
  | case4 a b c d cs n _ ih =>
    have := cons (fun h => ih h) h
    simp only [List.length_cons] at this ⊢
    omega
  | case5 => simp at h
  | case6 e cs _ c _ ih =>
    have := cons (fun h => ih h) h
    simp only [List.length_cons] at this ⊢
    omega
  | case7 => simp at h
  | case8 c cs _ _ _ _ ih =>
    have := cons (fun h => ih h) h
    simp only [List.length_cons] at this ⊢
    omega

theorem text?_shorter {cs rest : List Char} {s? : Option String}
    (h : text? cs = some (s?, rest)) : rest.length < cs.length := by
  obtain ⟨⟨parts, r⟩, hp, he⟩ := Option.map_eq_some_iff.mp h
  obtain ⟨-, rfl⟩ := Prod.mk.inj he
  exact parts?_shorter hp

theorem dropWhile_length_le (p : Char → Bool) (cs : List Char) :
    (cs.dropWhile p).length ≤ cs.length :=
  (List.dropWhile_sublist _).length_le

theorem digits?_shorter {cs rest ds : List Char} (h : digits? cs = some (ds, rest)) :
    rest.length < cs.length := by
  unfold digits? at h
  split at h
  · cases h
    cases cs with
    | nil => simp at *
    | cons c cs =>
      have hc : c.isDigit = true := by simpa using ‹_›
      have := dropWhile_length_le Char.isDigit cs
      simp [hc]
      omega
  · simp at h

theorem whole?_shorter {cs rest ds : List Char} (h : whole? cs = some (ds, rest)) :
    rest.length < cs.length := by
  unfold whole? at h
  split at h
  · split at h
    · simp at h
    · cases h
      simp
  · exact digits?_shorter h

theorem fraction?_length_le {cs rest ds : List Char} (h : fraction? cs = some (ds, rest)) :
    rest.length ≤ cs.length := by
  unfold fraction? at h
  split at h
  · obtain ⟨⟨ds, r⟩, hd, he⟩ := Option.map_eq_some_iff.mp h
    obtain ⟨-, rfl⟩ := Prod.mk.inj he
    have := digits?_shorter hd
    simp
    omega
  · cases h
    exact Nat.le_refl _

theorem exponentSign_length_le (cs : List Char) : (exponentSign cs).2.length ≤ cs.length := by
  unfold exponentSign
  split <;> simp

theorem exponent?_length_le {cs rest ds : List Char} (h : exponent? cs = some (ds, rest)) :
    rest.length ≤ cs.length := by
  unfold exponent? at h
  split at h
  · cases h
    exact Nat.le_refl _
  · rename_i e cs
    split at h
    · obtain ⟨⟨ds, r⟩, hd, he⟩ := Option.map_eq_some_iff.mp h
      obtain ⟨-, rfl⟩ := Prod.mk.inj he
      have := digits?_shorter hd
      have := exponentSign_length_le cs
      simp
      omega
    · cases h
      exact Nat.le_refl _

theorem unsigned?_shorter {negative : Bool} {cs rest : List Char} {v : Json}
    (h : unsigned? negative cs = some (v, rest)) : rest.length < cs.length := by
  simp only [unsigned?, Option.bind_eq_bind, Option.bind_eq_some_iff, Prod.exists, pure,
    Option.some.injEq, Prod.mk.injEq] at h
  obtain ⟨_, _, hw, _, _, hf, _, _, he, -, rfl⟩ := h
  have := whole?_shorter hw
  have := fraction?_length_le hf
  have := exponent?_length_le he
  omega

theorem number?_shorter {cs rest : List Char} {v : Json} (h : number? cs = some (v, rest)) :
    rest.length < cs.length := by
  unfold number? at h
  split at h
  · have := unsigned?_shorter h
    simp
    omega
  · exact unsigned?_shorter h

theorem afterWord?_length_le {word cs rest : List Char} (h : afterWord? word cs = some rest) :
    rest.length ≤ cs.length := by
  fun_induction afterWord? word cs with
  | case1 => simp_all
  | case2 ws c cs ih =>
    have := ih h
    simp
    omega
  | case3 => simp at h
  | case4 => simp at h

theorem scalar?_shorter {cs rest : List Char} {v : Json} (h : scalar? cs = some (v, rest)) :
    rest.length < cs.length := by
  have word : ∀ {w us : List Char} {u v : Json} {rest : List Char},
      (afterWord? w us).map (u, ·) = some (v, rest) → rest.length < us.length + 1 := by
    intro w us u v rest h
    obtain ⟨r, hr, he⟩ := Option.map_eq_some_iff.mp h
    obtain ⟨-, rfl⟩ := Prod.mk.inj he
    exact Nat.lt_succ_of_le (afterWord?_length_le hr)
  unfold scalar? at h
  split at h
  · obtain ⟨⟨s?, r⟩, hs, he⟩ := Option.map_eq_some_iff.mp h
    obtain ⟨-, rfl⟩ := Prod.mk.inj he
    have := text?_shorter hs
    simp
    omega
  · exact word h
  · exact word h
  · exact word h
  · exact number?_shorter h

/-! ### Values -/

/-- A value and the characters left, fewer than those of `cs`. -/
abbrev Shorter (α : Type) (cs : List Char) :=
  { p : α × List Char // p.2.length < cs.length }

/-- The key at the front of an entry, through its colon. -/
def key? (cs : List Char) : Option (Option String × List Char) :=
  match skipBlanks cs with
  | '"' :: cs =>
    match text? cs with
    | none => none
    | some (key, cs) =>
      match skipBlanks cs with
      | ':' :: cs => some (key, cs)
      | _ => none
  | _ => none

theorem key?_shorter {cs rest : List Char} {key : Option String}
    (h : key? cs = some (key, rest)) : rest.length < cs.length := by
  unfold key? at h
  split at h
  · rename_i cs' hcs
    split at h
    · simp at h
    · rename_i key' mid ht
      split at h
      · rename_i last hmid
        cases h
        have := length_of_skipBlanks hcs
        have := text?_shorter ht
        have := length_of_skipBlanks hmid
        omega
      · simp at h
  · simp at h

mutual

/-- The value at the front of a text. -/
def valueOf (cs : List Char) : Option (Shorter Json cs) :=
  match hcs : skipBlanks cs with
  | [] => none
  | '[' :: us =>
    have h : us.length < cs.length := length_of_skipBlanks hcs
    match hus : skipBlanks us with
    | ']' :: rest =>
      some ⟨(.array [], rest), Nat.lt_trans (length_of_skipBlanks hus) h⟩
    | _ =>
      match elementsOf us with
      | none => none
      | some ⟨(vs, rest), h'⟩ => some ⟨(.array vs, rest), Nat.lt_trans h' h⟩
  | '\x7b' :: us =>
    have h : us.length < cs.length := length_of_skipBlanks hcs
    match hus : skipBlanks us with
    | '\x7d' :: rest =>
      some ⟨(.object [], rest), Nat.lt_trans (length_of_skipBlanks hus) h⟩
    | _ =>
      match entriesOf us with
      | none => none
      | some ⟨(entries, rest), h'⟩ => some ⟨(.object entries, rest), Nat.lt_trans h' h⟩
  | c :: us =>
    match hv : scalar? (c :: us) with
    | none => none
    | some (v, rest) => some ⟨(v, rest), by
        have := scalar?_shorter hv
        have := skipBlanks_length_le cs
        rw [hcs] at this
        exact Nat.lt_of_lt_of_le ‹_› this⟩
termination_by 2 * cs.length
decreasing_by all_goals omega

/-- Elements and the bracket that closes them, from the front of the first. -/
def elementsOf (cs : List Char) : Option (Shorter (List Json) cs) :=
  match valueOf cs with
  | none => none
  | some ⟨(v, us), h⟩ =>
    have h : us.length < cs.length := h
    match hus : skipBlanks us with
    | ']' :: rest => some ⟨([v], rest), Nat.lt_trans (length_of_skipBlanks hus) h⟩
    | ',' :: ws =>
      have h' : ws.length < cs.length := Nat.lt_trans (length_of_skipBlanks hus) h
      match elementsOf ws with
      | none => none
      | some ⟨(vs, rest), h''⟩ => some ⟨(v :: vs, rest), Nat.lt_trans h'' h'⟩
    | _ => none
termination_by 2 * cs.length + 1
decreasing_by all_goals omega

/-- Entries and the brace that closes them, from the front of the first. -/
def entriesOf (cs : List Char) : Option (Shorter (List (Option String × Json)) cs) :=
  match hk : key? cs with
  | none => none
  | some (key, vs) =>
    have hk : vs.length < cs.length := key?_shorter hk
    match valueOf vs with
    | none => none
    | some ⟨(v, us), h⟩ =>
      have h : us.length < cs.length := Nat.lt_trans h hk
      match hus : skipBlanks us with
      | '\x7d' :: rest => some ⟨([(key, v)], rest), Nat.lt_trans (length_of_skipBlanks hus) h⟩
      | ',' :: ws =>
        have h' : ws.length < cs.length := Nat.lt_trans (length_of_skipBlanks hus) h
        match entriesOf ws with
        | none => none
        | some ⟨(entries, rest), h''⟩ =>
          some ⟨((key, v) :: entries, rest), Nat.lt_trans h'' h'⟩
      | _ => none
termination_by 2 * cs.length
decreasing_by all_goals omega

end

/-- The value a text is. -/
def read? (text : String) : Option Json :=
  match valueOf text.toList with
  | none => none
  | some ⟨(v, rest), _⟩ => if skipBlanks rest = [] then some v else none

end Schemata.Json
