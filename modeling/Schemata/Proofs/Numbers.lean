/-
Numbers from the text to the descriptor.

The value of a literal passes through three hands: a token holds it up to a limit, a reader puts
the sign before it and asks whether thirty-two bits hold it, and a descriptor takes it over.  The
limit of a token is far beyond thirty-two bits, so nothing is lost that is not refused.  A
number that fits is the value of its literal, and one that does not is refused where its literal
stands, since no other token has been looked at by then.
-/
import Mathlib.Data.List.Forall2
import Schemata.Proofs.Grammar.Approach
import Schemata.Proofs.Lowering.Imports
import Schemata.Proofs.Lowering.Population
import Schemata.Proofs.Token.Numerals

namespace Schemata

open Lexer Production

/-! ### Values and thirty-two bits -/

/-- The value of a literal under its sign. -/
def signed (negative : Bool) (value : Nat) : Int := if negative then -value else value

/-- Thirty-two bits hold the value. -/
def Fits (value : Int) : Prop := -0x80000000 ≤ value ∧ value ≤ 0x7FFFFFFF

theorem fits_toInt (k : Int32) : Fits k.toInt :=
  ⟨k.le_toInt, Int.le_sub_one_of_lt k.toInt_lt⟩

/-- A number that is read is the value of its literal, since a token holds less than that only
where thirty-two bits hold neither. -/
theorem Lexer.Holds.int32?_eq_some {n : Int64} {value : Nat} (h : Holds n value)
    {negative : Bool} {k : Int32} :
    Grammar.int32? negative (.int n) = some k ↔ k.toInt = signed negative value := by
  have hrange := fits_toInt k
  unfold Fits at hrange
  rw [Grammar.int32?_eq_some, h, signed]
  cases negative with
  | false =>
      show k.toInt = (min value (2 ^ 63 - 1) : Nat) ↔ k.toInt = (value : Int)
      omega
  | true =>
      show k.toInt = -(min value (2 ^ 63 - 1) : Nat) ↔ k.toInt = -(value : Int)
      omega

/-- A literal is read as a number exactly if its value fits. -/
theorem Lexer.Holds.isSome_int32? {n : Int64} {value : Nat} (h : Holds n value)
    {negative : Bool} :
    (Grammar.int32? negative (.int n)).isSome ↔ Fits (signed negative value) := by
  rw [Option.isSome_iff_exists]
  constructor
  · rintro ⟨k, hk⟩
    exact h.int32?_eq_some.mp hk ▸ fits_toInt k
  · intro hfits
    have hvalue := Int32.toInt_ofInt_of_le hfits.1 (Int.lt_add_one_of_le hfits.2)
    exact ⟨_, h.int32?_eq_some.mpr hvalue⟩

/-- A literal that does not fit is refused before a token behind it is looked at. -/
theorem integer_refuses {negative : Bool} {t : Located} {n : Int64} (ht : t.token = .int n)
    (h : Grammar.int32? negative t.token = none) :
    ∃ fault, ∀ rest, Reader.integer negative (t :: rest) = .error ⟨fault, t :: rest⟩ := by
  rw [ht, ← Grammar.number?_eq] at h
  by_cases hlimit : n = .maxValue
  · refine ⟨.literalOutOfRange, fun rest => ?_⟩
    simp only [Reader.integer, ht, h]
    exact if_pos hlimit
  · refine ⟨.outOfRange (if negative then -n else n), fun rest => ?_⟩
    simp only [Reader.integer, ht, h]
    exact if_neg hlimit

/-! ### Where a number is wanted -/

/-- In some text a number of a field stands behind these tokens. -/
def BeforeFieldNumber (before : List Located) : Prop :=
  ∃ d, ∃ f ∈ Grammar.fieldsOf d, before = f.before ++ Grammar.fieldLead f.tree

/-- In some text a number of an enum value stands behind these tokens, which end with its sign if
it has one. -/
def BeforeValueNumber (negative : Bool) (before : List Located) : Prop :=
  ∃ d, ∃ e ∈ Grammar.enumsOf d, ∃ v ∈ Grammar.valuesOf e,
    before = v.before ++ Grammar.valueLead v.tree ∧ negative = Grammar.valueNegative v.tree

/-- The tokens begin a text that is read. -/
def BeginsText (ts : List Located) : Prop :=
  ∃ more s, Lexed (ts ++ more) ∧ Schema.read (ts ++ more) = .ok s

/-- Reading gets past the token `t` of the file, with `before` before it and `rest` behind it, if
the condition holds.  If not, the token is a syntax error on its line. -/
structure DecidedBy (fits : Prop) (name : String) (bytes : ByteArray) (nesting : Nesting)
    (before : List Located) (t : Located) (rest : List Located) : Prop where
  /-- With the token the tokens begin a text. -/
  accepted : BeginsText (before ++ [t]) ↔ fits
  /-- What else is wrong with the text is wrong further on. -/
  later : fits → ∀ {r}, Schema.read (before ++ t :: rest) = .error r →
    ∃ u ∈ rest, r.line = u.place.line
  refused : ¬ fits → ∃ fault, compileBytes name bytes nesting =
    .error (.grammar name t.place.line fault)

section

variable {name text : String} {bytes : ByteArray} {nesting : Nesting} {before rest : List Located}
  {t : Located} {negative : Bool} {starts : Token → Prop}

theorem Lexed.isLexeme (h : Lexed (before ++ t :: rest)) (ht : t.token ≠ .eof) :
    ∀ u ∈ before ++ [t], u.token.IsLexeme := by
  obtain ⟨body, last, heq, hlast, hbody⟩ := h
  have hpart : before ++ [t] <+: body ++ [last] := ⟨rest, by simp [← heq]⟩
  rcases List.prefix_concat_iff.mp hpart with h | h
  · have hlasts : t = last := List.singleton_inj.mp (List.append_inj' h rfl).2
    exact absurd (hlasts ▸ hlast) ht
  · exact fun u hu => hbody u (h.subset hu)

/-- Where a number is wanted, the next token is one or is refused. -/
theorem beginsText_iff
    (hlead : Leads Reader.schema Grammar.schema before (Reader.integer negative)
      (token (Grammar.int32? negative)) starts)
    (hstarts : starts t.token) (hlexed : ∀ u ∈ before ++ [t], u.token.IsLexeme) {n : Int64}
    (ht : t.token = .int n) :
    BeginsText (before ++ [t]) ↔ (Grammar.int32? negative t.token).isSome := by
  constructor
  · rintro ⟨more, s, -, hread⟩
    by_contra hnone
    obtain ⟨fault, hrefuses⟩ := integer_refuses ht (Option.not_isSome_iff_eq_none.mp hnone)
    have hfront : starts (frontToken (t :: more)) := hstarts
    rw [List.append_assoc] at hread
    exact read_ne_ok (hlead.refuses hfront (hrefuses more)) s hread
  · intro hsome
    exact exists_read_of_begun hlexed (hlead.begun ⟨⟨t, hsome⟩, [], rfl, by simp⟩)

/-- Reading a text fails as reading its statements does. -/
theorem read_of_error {tokens : List Located} (hlexed : Lexed tokens) {r : Refusal}
    (h : Reader.schema tokens = .error r) : Schema.read tokens = .error r := by
  obtain ⟨body, last, rfl, hlast, -⟩ := hlexed
  rw [read_concat hlast, h]
  rfl

/-- A text that goes wrong goes wrong behind what begins a text. -/
theorem exists_line_of_read_error (hlexed : Lexed (before ++ t :: rest))
    (hbegins : BeginsText (before ++ [t])) {r : Refusal}
    (h : Schema.read (before ++ t :: rest) = .error r) : ∃ u ∈ rest, r.line = u.place.line := by
  obtain ⟨used, u, after, hsplit, hline, -, hspoils⟩ := read_deviates hlexed h
  obtain ⟨more, s, -, hread⟩ := hbegins
  have hfurther : ¬ used ++ [u] <+: before ++ [t] := by
    rintro ⟨between, hbetween⟩
    rw [← hbetween, List.append_assoc, List.append_assoc] at hread
    exact hspoils (between ++ more) s hread
  have hpart : before ++ [t] <+: used ++ u :: after := ⟨rest, by simp [← hsplit]⟩
  have hpart' : used ++ [u] <+: used ++ u :: after := ⟨after, by simp⟩
  have hbehind := (List.prefix_or_prefix_of_prefix hpart hpart').resolve_right hfurther
  rcases List.prefix_concat_iff.mp hbehind with heq | ⟨between, rfl⟩
  · exact absurd (heq ▸ List.prefix_rfl) hfurther
  · have hrest : rest = between ++ u :: after := by simpa using hsplit
    exact ⟨u, by simp [hrest], hline⟩

/-- A literal that stands where a number is wanted is read if it fits and refused if not. -/
theorem decidedBy_fits
    (hlead : Leads Reader.schema Grammar.schema before (Reader.integer negative)
      (token (Grammar.int32? negative)) starts)
    (hstarts : starts t.token) (htext : String.fromUTF8? bytes = some text)
    (hlex : lex text = .ok (before ++ t :: rest)) {value : Nat} (hvalue : LiteralAt text t value) :
    DecidedBy (Fits (signed negative value)) name bytes nesting before t rest := by
  obtain ⟨n, hint, hholds⟩ := hvalue.exists_int
  have hlexed := lexed_lex hlex
  have hbegins := beginsText_iff hlead hstarts (hlexed.isLexeme (by simp [hint])) hint
  rw [hint, hholds.isSome_int32?] at hbegins
  refine ⟨hbegins, fun hfits => exists_line_of_read_error hlexed (hbegins.mpr hfits), ?_⟩
  intro hfits
  rw [← hholds.isSome_int32?, Option.not_isSome_iff_eq_none, ← hint] at hfits
  obtain ⟨fault, hrefuses⟩ := integer_refuses hint hfits
  have hfront : starts (frontToken (t :: rest)) := hstarts
  have hschema := read_of_error hlexed (hlead.refuses hfront (hrefuses rest))
  exact ⟨_, compileBytes_of_read_error htext hlex hschema name nesting⟩

end

/-! ### Numbers of a descriptor -/

/-- The number is the value of the literal that stands in the text at the token, under its
sign. -/
def NumberAt (text : String) (negative : Bool) (t : Located) (number : Int32) : Prop :=
  ∃ value, LiteralAt text t value ∧ number.toInt = signed negative value

/-- The field has the name and the number that are written in the text. -/
def WrittenField (text : String) (g : Descriptor.Field) (f : Grammar.Part Grammar.field) : Prop :=
  g.name = (Grammar.field.value f.tree).name ∧
    NumberAt text false (Grammar.fieldNumber f.tree) g.number

/-- The enum value has the name and the number that are written in the text. -/
def WrittenValue (text : String) (g : Descriptor.EnumValue)
    (v : Grammar.Part Grammar.enumValue) : Prop :=
  g.name = (Grammar.enumValue.value v.tree).name ∧
    NumberAt text (Grammar.valueNegative v.tree) (Grammar.valueNumber v.tree) g.number

/-- The enum has the name and the values that are written in the text. -/
def WrittenEnum (text : String) (g : Descriptor.Enum) (e : Grammar.Part Grammar.enum) : Prop :=
  g.name = (Grammar.enum.value e.tree).name ∧
    List.Forall₂ (WrittenValue text) g.values (Grammar.valuesOf e)

section

variable {text : String} {d : Grammar.file.Tree}

theorem numberAt_of_int32? {negative : Bool} {t : Located} {number : Int32}
    (hlex : lex text = .ok (Grammar.file.tokens d)) (ht : t ∈ Grammar.file.tokens d)
    (h : Grammar.int32? negative t.token = some number) : NumberAt text negative t number := by
  obtain ⟨n, hint⟩ : ∃ n, t.token = .int n := by
    cases htoken : t.token with
    | int n => exact ⟨n, rfl⟩
    | _ => simp [htoken, Grammar.int32?] at h
  obtain ⟨value, hvalue⟩ := exists_literalAt hlex ht hint
  obtain ⟨m, hm, hholds⟩ := hvalue.exists_int
  exact ⟨value, hvalue, hholds.int32?_eq_some.mp (hm ▸ h)⟩

theorem writtenField_lowered (enumNames : List String)
    (hlex : lex text = .ok (Grammar.file.tokens d)) {f : Grammar.Part Grammar.field}
    (hf : f ∈ Grammar.fieldsOf d) :
    WrittenField text ((Grammar.field.value f.tree).lowered enumNames) f := by
  obtain ⟨after, htokens⟩ := Grammar.field_tokens f.tree
  have hmem : Grammar.fieldNumber f.tree ∈ Grammar.file.tokens d :=
    (Grammar.in_of_mem_fieldsOf hf).subset (htokens ▸ by simp)
  have hnumber := numberAt_of_int32? hlex hmem (Grammar.int32?_fieldNumber f.tree)
  cases htype : (Grammar.field.value f.tree).type <;>
    simpa [WrittenField, FieldDecl.lowered, htype] using hnumber

theorem writtenEnum_lowered (hlex : lex text = .ok (Grammar.file.tokens d))
    {e : Grammar.Part Grammar.enum} (he : e ∈ Grammar.enumsOf d) :
    WrittenEnum text (Grammar.enum.value e.tree).lowered e := by
  refine ⟨rfl, ?_⟩
  rw [EnumDecl.lowered, Grammar.declares_enum, List.map_map, List.forall₂_map_left_iff,
    List.forall₂_same]
  intro v hv
  obtain ⟨after, htokens⟩ := Grammar.enumValue_tokens v.tree
  have hmem : Grammar.valueNumber v.tree ∈ Grammar.file.tokens d :=
    (Grammar.in_of_mem_valuesOf (Grammar.in_of_mem_enumsOf he) hv).subset (htokens ▸ by simp)
  exact ⟨rfl, numberAt_of_int32? hlex hmem (Grammar.int32?_valueNumber v.tree)⟩

end

end Schemata
