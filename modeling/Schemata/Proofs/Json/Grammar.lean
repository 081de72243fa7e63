/-
The texts of a value.

A value has many texts: white space may stand around its parts, a character of a string may be
written as it stands or by an escape, and a number has the digits it has.  `Spells` says which
texts these are without reading them, from the leaves up.  A string that names no characters is
told by its parts, since it has no characters to be told by.
-/
import Mathlib.Data.List.Forall2
import Schemata.Json.Reader

namespace Schemata.Json

/-- White space, perhaps none. -/
def Blanks (cs : List Char) : Prop := ∀ c ∈ cs, isBlank c = true

/-! ### Strings -/

/-- The ways to write a part of a string. -/
inductive PartText : Part → List Char → Prop
  /-- The character as it stands: it closes no string, begins no escape and is no control
  character. -/
  | plain {c : Char} (hquote : c ≠ '"') (hescape : c ≠ '\\') (hcontrol : 0x20 ≤ c.toNat) :
      PartText (.char c) [c]
  /-- The character by its letter. -/
  | letter {e c : Char} (h : unescape? e = some c) : PartText (.char c) ['\\', e]
  /-- A code unit by its digits to the base sixteen. -/
  | unit {a b c d : Char} {n : Nat} (h : unitValue? a b c d = some n) :
      PartText (.unit n) ['\\', 'u', a, b, c, d]

/-- The ways to write a character of a string: by itself, by its code, or by the pair of units
that stands for its code. -/
inductive CharText (c : Char) : List Char → Prop
  | char {text : List Char} (h : PartText (.char c) text) : CharText c text
  | code {text : List Char} (h : PartText (.unit c.toNat) text) : CharText c text
  | pair {high low : List Char} (hc : 0x10000 ≤ c.toNat)
      (hhigh : PartText (.unit (0xD800 + (c.toNat - 0x10000) / 0x400)) high)
      (hlow : PartText (.unit (0xDC00 + (c.toNat - 0x10000) % 0x400)) low) :
      CharText c (high ++ low)

/-- The texts of a string between its quotes. -/
inductive StringText : Option String → List Char → Prop
  | chars {s : String} {texts : List (List Char)} (h : List.Forall₂ CharText s.toList texts) :
      StringText (some s) texts.flatten
  /-- Half a pair names no character. -/
  | halves {parts : List Part} {texts : List (List Char)} (h : List.Forall₂ PartText parts texts)
      (hnone : assemble parts = none) : StringText none texts.flatten

/-! ### Numbers -/

/-- Digits, at least one. -/
def Digits (cs : List Char) : Prop := cs ≠ [] ∧ ∀ c ∈ cs, c.isDigit = true

/-- Digits that begin with a zero only if there are no others. -/
def WholePart (cs : List Char) : Prop := Digits cs ∧ (cs.head? = some '0' → cs = ['0'])

/-- A point and digits, or nothing. -/
inductive FractionPart : List Char → Prop
  | missing : FractionPart []
  | digits {ds : List Char} (h : Digits ds) : FractionPart ('.' :: ds)

/-- A letter, perhaps a sign, and digits, or nothing. -/
inductive ExponentPart : List Char → Prop
  | missing : ExponentPart []
  | digits {mark : Char} {sign ds : List Char} (hmark : mark = 'e' ∨ mark = 'E')
      (hsign : sign = [] ∨ sign = ['+'] ∨ sign = ['-']) (h : Digits ds) :
      ExponentPart (mark :: (sign ++ ds))

/-! ### Values -/

/-- A value where it stands in a text: its characters, with white space before and after. -/
structure Item where
  value : Json
  before : List Char
  text : List Char
  after : List Char

namespace Item

/-- All characters of the item. -/
def all (i : Item) : List Char := i.before ++ (i.text ++ i.after)

/-- Nothing but white space stands around the value. -/
def Spaced (i : Item) : Prop := Blanks i.before ∧ Blanks i.after

end Item

/-- An entry of an object where it stands in a text: its key, between white space, and its
value. -/
structure Entry extends Item where
  key : Option String
  keyBefore : List Char
  keyText : List Char
  keyAfter : List Char

namespace Entry

/-- All characters of the entry. -/
def whole (e : Entry) : List Char :=
  e.keyBefore ++ '"' :: (e.keyText ++ '"' :: (e.keyAfter ++ ':' :: e.all))

/-- Nothing but white space stands around the key and the value, and the key is written with its
characters. -/
structure Keyed (e : Entry) : Prop where
  spaced : e.Spaced
  before : Blanks e.keyBefore
  text : StringText e.key e.keyText
  after : Blanks e.keyAfter

end Entry

/-- The characters are a text of the value, from its first to its last. -/
inductive Spells : Json → List Char → Prop
  | null : Spells .null ['n', 'u', 'l', 'l']
  | bool (b : Bool) : Spells (.bool b) (toString b).toList
  | number {negative : Bool} {whole fraction exponent : List Char} (hwhole : WholePart whole)
      (hfraction : FractionPart fraction) (hexponent : ExponentPart exponent) :
      Spells (numberOf negative whole (fraction ++ exponent))
        ((if negative then ['-'] else []) ++ (whole ++ (fraction ++ exponent)))
  | string {s? : Option String} {text : List Char} (h : StringText s? text) :
      Spells (.string s?) ('"' :: (text ++ ['"']))
  | noElements {blanks : List Char} (h : Blanks blanks) :
      Spells (.array []) ('[' :: (blanks ++ [']']))
  | array {items : List Item} (hne : items ≠ []) (hspaced : ∀ i ∈ items, i.Spaced)
      (h : ∀ i ∈ items, Spells i.value i.text) :
      Spells (.array (items.map (·.value)))
        ('[' :: ([','].intercalate (items.map Item.all) ++ [']']))
  | noEntries {blanks : List Char} (h : Blanks blanks) :
      Spells (.object []) ('\x7b' :: (blanks ++ ['\x7d']))
  | object {entries : List Entry} (hne : entries ≠ []) (hkeyed : ∀ e ∈ entries, e.Keyed)
      (h : ∀ e ∈ entries, Spells e.value e.text) :
      Spells (.object (entries.map fun e => (e.key, e.value)))
        ('\x7b' :: ([','].intercalate (entries.map Entry.whole) ++ ['\x7d']))

/-- The text is one of the value's, with white space before and behind it. -/
def IsTextOf (v : Json) (text : String) : Prop :=
  ∃ before cs after, text.toList = before ++ (cs ++ after) ∧ Blanks before ∧ Spells v cs ∧
    Blanks after

end Schemata.Json
