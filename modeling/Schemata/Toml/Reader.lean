/-
Reading values and keys of a TOML document.

An integer is decimal with an optional sign and no zero in front, or has base sixteen,
eight or two after its mark; single underscores may stand between digits, and the
value has to fit sixty-four bits.  A key is a bare word or a string on one line, and
dots join keys to a path.  A list may go over several lines, have comments, and end
with a comma; a table in braces may not.

Lists and tables contain values, so their readers call one another on ever fewer
characters.
-/
import Schemata.Toml.Text
import Schemata.Toml.Entries

namespace Schemata.Toml

/-! ### Integers -/

/-- The value of a digit in the base, if it is one. -/
def digitIn? (base : Nat) (c : Char) : Option Nat :=
  match hexValue? c with
  | some n => if n < base then some n else none
  | none => none

/-- The digits that go on a number, underscores between them dropped, and what
follows.  An underscore that no digit follows is an error. -/
def moreDigits? (base : Nat) : List Char → Option (List Nat × List Char)
  | [] => some ([], [])
  | c :: cs =>
    match digitIn? base c with
    | some n => (moreDigits? base cs).map fun (ns, rest) => (n :: ns, rest)
    | none =>
      if c ≠ '_' then some ([], c :: cs)
      else
        match cs with
        | [] => none
        | d :: ds =>
          match digitIn? base d with
          | some n => (moreDigits? base ds).map fun (ns, rest) => (n :: ns, rest)
          | none => none

/-- A number in the base, from its first digit on. -/
def natIn? (base : Nat) : List Char → Option (Nat × List Char)
  | [] => none
  | c :: cs =>
    match digitIn? base c with
    | some first => (moreDigits? base cs).map fun (ns, rest) =>
        (ns.foldl (fun n d => n * base + d) first, rest)
    | none => none

/-- A decimal number without a zero in front. -/
def decimal? : List Char → Option (Nat × List Char)
  | '0' :: cs => some (0, cs)
  | cs => natIn? 10 cs

/-- A number that may begin with the mark of its base. -/
def marked? : List Char → Option (Nat × List Char)
  | '0' :: 'x' :: cs => natIn? 16 cs
  | '0' :: 'o' :: cs => natIn? 8 cs
  | '0' :: 'b' :: cs => natIn? 2 cs
  | cs => decimal? cs

/-- A number with its sign. -/
def signed? : List Char → Option (Int × List Char)
  | '+' :: cs => (decimal? cs).map fun (n, rest) => (n, rest)
  | '-' :: cs => (decimal? cs).map fun (n, rest) => (-n, rest)
  | cs => (marked? cs).map fun (n, rest) => (n, rest)

/-- An integer that fits sixty-four bits. -/
def integer? (cs : List Char) : Option (Value × List Char) :=
  match signed? cs with
  | some (n, rest) =>
    if -0x8000000000000000 ≤ n ∧ n < 0x8000000000000000 then some (.integer n, rest) else none
  | none => none

/-- A value that is no list and no table. -/
def scalar? (cs : List Char) : Option (Value × List Char) :=
  if cs.head? = some '"' ∨ cs.head? = some '\'' then
    (string? cs).map fun (s, rest) => (.string s, rest)
  else integer? cs

theorem moreDigits?_length_le {base : Nat} {cs rest : List Char} {ns : List Nat}
    (h : moreDigits? base cs = some (ns, rest)) : rest.length ≤ cs.length := by
  fun_induction moreDigits? base cs generalizing ns rest with
  | case1 => simp_all
  | case2 c cs n _ ih =>
    obtain ⟨⟨_, r⟩, hr, heq⟩ := Option.map_eq_some_iff.mp h
    obtain ⟨-, rfl⟩ := Prod.mk.inj heq
    have := ih hr
    simp
    omega
  | case3 c cs => simp_all
  | case4 => simp at h
  | case5 _ _ _ d ds n _ ih =>
    obtain ⟨⟨_, r⟩, hr, heq⟩ := Option.map_eq_some_iff.mp h
    obtain ⟨-, rfl⟩ := Prod.mk.inj heq
    have := ih hr
    simp
    omega
  | case6 => simp at h

theorem natIn?_shorter {base n : Nat} {cs rest : List Char}
    (h : natIn? base cs = some (n, rest)) : rest.length < cs.length := by
  unfold natIn? at h
  split at h
  · simp at h
  · split at h
    · obtain ⟨⟨_, r⟩, hr, heq⟩ := Option.map_eq_some_iff.mp h
      obtain ⟨-, rfl⟩ := Prod.mk.inj heq
      have := moreDigits?_length_le hr
      simp
      omega
    · simp at h

theorem decimal?_shorter {n : Nat} {cs rest : List Char} (h : decimal? cs = some (n, rest)) :
    rest.length < cs.length := by
  unfold decimal? at h
  split at h
  · cases h
    simp
  · exact natIn?_shorter h

theorem marked?_shorter {n : Nat} {cs rest : List Char} (h : marked? cs = some (n, rest)) :
    rest.length < cs.length := by
  unfold marked? at h
  split at h
  · exact Nat.lt_succ_of_lt (Nat.lt_succ_of_lt (natIn?_shorter h))
  · exact Nat.lt_succ_of_lt (Nat.lt_succ_of_lt (natIn?_shorter h))
  · exact Nat.lt_succ_of_lt (Nat.lt_succ_of_lt (natIn?_shorter h))
  · exact decimal?_shorter h

theorem signed?_shorter {n : Int} {cs rest : List Char} (h : signed? cs = some (n, rest)) :
    rest.length < cs.length := by
  unfold signed? at h
  split at h
  · obtain ⟨⟨_, r⟩, hr, heq⟩ := Option.map_eq_some_iff.mp h
    obtain ⟨-, rfl⟩ := Prod.mk.inj heq
    exact Nat.lt_succ_of_lt (decimal?_shorter hr)
  · obtain ⟨⟨_, r⟩, hr, heq⟩ := Option.map_eq_some_iff.mp h
    obtain ⟨-, rfl⟩ := Prod.mk.inj heq
    exact Nat.lt_succ_of_lt (decimal?_shorter hr)
  · obtain ⟨⟨_, r⟩, hr, heq⟩ := Option.map_eq_some_iff.mp h
    obtain ⟨-, rfl⟩ := Prod.mk.inj heq
    exact marked?_shorter hr

theorem integer?_shorter {v : Value} {cs rest : List Char} (h : integer? cs = some (v, rest)) :
    rest.length < cs.length := by
  unfold integer? at h
  split at h
  · rename_i hs
    split at h
    · cases h
      exact signed?_shorter hs
    · simp at h
  · simp at h

theorem scalar?_shorter {v : Value} {cs rest : List Char} (h : scalar? cs = some (v, rest)) :
    rest.length < cs.length := by
  unfold scalar? at h
  split at h
  · obtain ⟨⟨_, r⟩, hr, heq⟩ := Option.map_eq_some_iff.mp h
    obtain ⟨-, rfl⟩ := Prod.mk.inj heq
    exact string?_shorter hr
  · exact integer?_shorter h

/-! ### Keys -/

/-- A character of a bare key. -/
def isBare (c : Char) : Bool := c.isAlphanum || c = '_' || c = '-'

/-- One key. -/
def key? (cs : List Char) : Option (String × List Char) :=
  if cs.head?.any isBare then some (String.ofList (cs.takeWhile isBare), cs.dropWhile isBare)
  else lineString? cs

theorem key?_shorter {cs rest : List Char} {k : String} (h : key? cs = some (k, rest)) :
    rest.length < cs.length := by
  unfold key? at h
  split at h
  · cases h
    cases cs with
    | nil => simp at *
    | cons c cs =>
      have hc : isBare c = true := by simpa using ‹_›
      have := dropWhile_length_le isBare cs
      simp only [List.dropWhile_cons_of_pos hc, List.length_cons]
      omega
  · exact lineString?_shorter h

/-- Keys with dots between them, and the white space around them. -/
def path? (cs : List Char) : Option (List String × List Char) :=
  match _h : key? (skipBlanks cs) with
  | none => none
  | some (k, us) =>
    match _h' : skipBlanks us with
    | '.' :: vs => (path? vs).map fun (ks, rest) => (k :: ks, rest)
    | vs => some ([k], vs)
termination_by cs.length
decreasing_by
  have := key?_shorter _h
  have := skipBlanks_length_le cs
  have := skipBlanks_length_le us
  rw [_h', List.length_cons] at this
  omega

theorem path?_shorter {cs rest : List Char} {ks : List String} (h : path? cs = some (ks, rest)) :
    rest.length < cs.length := by
  fun_induction path? cs generalizing ks rest with
  | case1 => simp at h
  | case2 cs k us hk vs hus ih =>
    obtain ⟨⟨_, r⟩, hr, heq⟩ := Option.map_eq_some_iff.mp h
    obtain ⟨-, rfl⟩ := Prod.mk.inj heq
    have := ih hr
    have := key?_shorter hk
    have := skipBlanks_length_le cs
    have := skipBlanks_length_le us
    rw [hus, List.length_cons] at this
    omega
  | case3 cs k us hk _ =>
    cases h
    have := key?_shorter hk
    have := skipBlanks_length_le cs
    have := skipBlanks_length_le us
    omega

/-! ### Values -/

/-- A comment through the end of its line, that end left out. -/
def skipComment (cs : List Char) : List Char := cs.dropWhile isPlain

/-- Drops white space, line ends and comments at the front. -/
def skipGap (cs : List Char) : List Char :=
  match cs with
  | [] => []
  | c :: cs =>
    if isGap c then skipGap cs
    else if c = '#' then skipGap (skipComment cs)
    else c :: cs
termination_by cs.length
decreasing_by
  · simp
  · have := dropWhile_length_le isPlain cs
    simp only [skipComment, List.length_cons]
    omega

theorem skipGap_length_le (cs : List Char) : (skipGap cs).length ≤ cs.length := by
  fun_induction skipGap cs with
  | case1 => simp
  | case2 c cs _ ih =>
    simp
    omega
  | case3 cs _ ih =>
    have := dropWhile_length_le isPlain cs
    simp only [skipComment, List.length_cons] at *
    omega
  | case4 => simp

theorem length_of_skipGap {cs rest : List Char} {c : Char} (h : skipGap cs = c :: rest) :
    rest.length < cs.length := by
  have := skipGap_length_le cs
  rw [h, List.length_cons] at this
  omega

theorem length_of_skipBlanks {cs rest : List Char} {c : Char} (h : skipBlanks cs = c :: rest) :
    rest.length < cs.length := by
  have := skipBlanks_length_le cs
  rw [h, List.length_cons] at this
  omega

/-- A value and the characters left, fewer than those of `cs`. -/
abbrev Shorter (α : Type) (cs : List Char) :=
  { p : α × List Char // p.2.length < cs.length }

/-- The path before an equals sign. -/
def assigned? (cs : List Char) : Option (List String × List Char) :=
  match path? cs with
  | some (ks, '=' :: rest) => some (ks, rest)
  | _ => none

theorem assigned?_shorter {cs rest : List Char} {ks : List String}
    (h : assigned? cs = some (ks, rest)) : rest.length < cs.length := by
  unfold assigned? at h
  split at h
  · rename_i hp
    cases h
    have := path?_shorter hp
    simp only [List.length_cons] at this
    omega
  · simp at h

mutual

/-- The value at the front, white space before it dropped. -/
def valueOf (cs : List Char) : Option (Shorter Value cs) :=
  match hcs : skipBlanks cs with
  | [] => none
  | '[' :: us =>
    have h : us.length < cs.length := length_of_skipBlanks hcs
    match elementsOf us with
    | none => none
    | some ⟨(vs, rest), h'⟩ => some ⟨(.array vs, rest), Nat.lt_trans h' h⟩
  | '\x7b' :: us =>
    have h : us.length < cs.length := length_of_skipBlanks hcs
    match hus : skipBlanks us with
    | '\x7d' :: rest =>
      some ⟨(.table [], rest), Nat.lt_trans (length_of_skipBlanks hus) h⟩
    | _ =>
      match pairsOf us with
      | none => none
      | some ⟨(pairs, rest), h'⟩ =>
        match Entries.ofPairs? pairs with
        | none => none
        | some entries => some ⟨(.table entries.values, rest), Nat.lt_trans h' h⟩
  | c :: us =>
    match hv : scalar? (c :: us) with
    | none => none
    | some (v, rest) => some ⟨(v, rest), by
        have := scalar?_shorter hv
        have := skipBlanks_length_le cs
        rw [hcs] at this
        exact Nat.lt_of_lt_of_le ‹_› this⟩
termination_by 2 * cs.length
decreasing_by all_goals omega

/-- The elements of a list that are left, through its closing bracket. -/
def elementsOf (cs : List Char) : Option (Shorter (List Value) cs) :=
  match hcs : skipGap cs with
  | ']' :: rest => some ⟨([], rest), length_of_skipGap hcs⟩
  | us =>
    have hle : us.length ≤ cs.length := hcs ▸ skipGap_length_le cs
    match valueOf us with
    | none => none
    | some ⟨(v, vs), h⟩ =>
      have h : vs.length < cs.length := Nat.lt_of_lt_of_le h hle
      match hvs : skipGap vs with
      | ']' :: rest => some ⟨([v], rest), Nat.lt_trans (length_of_skipGap hvs) h⟩
      | ',' :: ws =>
        have h' : ws.length < cs.length := Nat.lt_trans (length_of_skipGap hvs) h
        match elementsOf ws with
        | none => none
        | some ⟨(more, rest), h''⟩ => some ⟨(v :: more, rest), Nat.lt_trans h'' h'⟩
      | _ => none
termination_by 2 * cs.length + 1
decreasing_by all_goals omega

/-- The assignments of a table in braces that are left, at least one, through its
closing brace. -/
def pairsOf (cs : List Char) : Option (Shorter (List (List String × Value)) cs) :=
  match hk : assigned? cs with
  | none => none
  | some (ks, us) =>
    have hk : us.length < cs.length := assigned?_shorter hk
    match valueOf us with
    | none => none
    | some ⟨(v, vs), h⟩ =>
      have h : vs.length < cs.length := Nat.lt_trans h hk
      match hvs : skipBlanks vs with
      | '\x7d' :: rest => some ⟨([(ks, v)], rest), Nat.lt_trans (length_of_skipBlanks hvs) h⟩
      | ',' :: ws =>
        have h' : ws.length < cs.length := Nat.lt_trans (length_of_skipBlanks hvs) h
        match pairsOf ws with
        | none => none
        | some ⟨(more, rest), h''⟩ => some ⟨((ks, v) :: more, rest), Nat.lt_trans h'' h'⟩
      | _ => none
termination_by 2 * cs.length
decreasing_by all_goals omega

end

end Schemata.Toml
