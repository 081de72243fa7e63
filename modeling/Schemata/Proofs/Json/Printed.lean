/-
What is printed is a text of the value, so reading undoes printing.

The printer's own layout is one of many: a character is written by itself, by its letter or by its
code, an integer by the digits of its number, and white space is a line feed with the indentation
of a level.  What names no string is written as half a pair.  A decimal stands for itself and need
not be a text that is read as one, so only values without decimals are considered.
-/
import Schemata.Proofs.Json.Values
import Schemata.Json.Printer

namespace Schemata.Json

/-! ### Strings -/

theorem hexValue?_hexDigit {n : Nat} (h : n < 16) : hexValue? (hexDigit n) = some n := by
  have all : ∀ n < 16, hexValue? (hexDigit n) = some n := by decide
  exact all n h

theorem unitValue?_control {n : Nat} (h : n < 0x100) :
    unitValue? '0' '0' (hexDigit (n / 16)) (hexDigit (n % 16)) = some n := by
  have hzero : hexValue? '0' = some 0 := by decide
  simp only [unitValue?, hzero, hexValue?_hexDigit (Nat.mod_lt n (by decide : 0 < 16)),
    hexValue?_hexDigit (show n / 16 < 16 by omega)]
  simp
  omega

theorem charText_escape (c : Char) : CharText c (escape c) := by
  by_cases hletter : c ∈ ['"', '\\', '\x08', '\x0c', '\n', '\r', '\t']
  · simp only [List.mem_cons, List.not_mem_nil, or_false] at hletter
    rcases hletter with rfl | rfl | rfl | rfl | rfl | rfl | rfl <;> exact .char (.letter rfl)
  simp only [List.mem_cons, List.not_mem_nil, or_false, not_or] at hletter
  by_cases hcontrol : c.toNat < 0x20
  · have hcode : escape c =
        ['\\', 'u', '0', '0', hexDigit (c.toNat / 16), hexDigit (c.toNat % 16)] := by
      simp [escape, *]
    rw [hcode]
    exact .code (.unit (unitValue?_control (by omega)))
  · have hself : escape c = [c] := by simp [escape, *]
    rw [hself]
    exact .char (.plain hletter.1 hletter.2.1 (by omega))

theorem exists_text_of_quote (s? : Option String) :
    ∃ text, StringText s? text ∧ quote s? = '"' :: (text ++ ['"']) := by
  cases s? with
  | none =>
      have hhalf : List.Forall₂ PartText [.unit 0xD800] [['\\', 'u', 'd', '8', '0', '0']] :=
        .cons (.unit rfl) .nil
      exact ⟨_, .halves hhalf rfl, rfl⟩
  | some s =>
      have htexts : List.Forall₂ CharText s.toList (s.toList.map escape) :=
        List.forall₂_map_right_iff.mpr (List.forall₂_same.mpr fun c _ => charText_escape c)
      exact ⟨_, .chars htexts, by rw [quote, List.flatMap_def, List.cons_append]⟩

/-! ### Integers -/

/-- The digits of a number begin with a zero only if it is zero. -/
theorem head?_toDigits {n : Nat} (h : (Nat.toDigits 10 n).head? = some '0') : n = 0 := by
  induction n using Nat.strongRecOn with
  | _ n ih =>
      by_cases hn : n < 10
      · rw [Nat.toDigits_of_lt_base hn] at h
        simpa using h
      · rw [Nat.toDigits_of_base_le (by decide) (by omega),
          List.head?_append_of_ne_nil _ Nat.toDigits_ne_nil] at h
        have := ih (n / 10) (by omega) h
        omega

theorem wholePart_toDigits (n : Nat) : WholePart (Nat.toDigits 10 n) :=
  ⟨⟨Nat.toDigits_ne_nil, fun _ => Nat.isDigit_of_mem_toDigits (by decide) (by decide)⟩,
    fun hhead => by rw [head?_toDigits hhead]; rfl⟩

theorem natOfDigits_toDigits (n : Nat) : natOfDigits (Nat.toDigits 10 n) = n := by
  have h := Nat.ofDigitChars_ten_toDigits (n := n)
  rw [Nat.ofDigitChars_eq_foldl] at h
  simpa only [natOfDigits, Nat.mul_comm] using h

theorem toList_negSucc (n : Nat) :
    (toString (Int.negSucc n)).toList = '-' :: Nat.toDigits 10 (n + 1) := by
  show ("-" ++ Nat.repr (n + 1)).toList = _
  simp

theorem spells_integer (n : Int) : Spells (.integer n) (toString n).toList := by
  have spells : ∀ negative n, Spells (numberOf negative (Nat.toDigits 10 n) ([] ++ []))
      ((if negative then ['-'] else []) ++ (Nat.toDigits 10 n ++ ([] ++ []))) := fun _ n =>
    .number (wholePart_toDigits n) .missing .missing
  cases n with
  | ofNat n =>
      have htext : (toString (Int.ofNat n)).toList = Nat.toDigits 10 n := Nat.toList_repr
      rw [htext]
      simpa [numberOf, natOfDigits_toDigits] using spells false n
  | negSucc n =>
      rw [toList_negSucc]
      simpa [numberOf, natOfDigits_toDigits, Int.negSucc_eq] using spells true (n + 1)

/-! ### Values -/

/-- A value whose numbers are all integers. -/
inductive Whole : Json → Prop
  | null : Whole .null
  | bool (b : Bool) : Whole (.bool b)
  | integer (n : Int) : Whole (.integer n)
  | string (s? : Option String) : Whole (.string s?)
  | array {vs : List Json} (h : ∀ v ∈ vs, Whole v) : Whole (.array vs)
  | object {entries : List (Option String × Json)} (h : ∀ e ∈ entries, Whole e.2) :
      Whole (.object entries)

theorem blanks_newLine (level : Nat) : Blanks (newLine level) := by
  intro c hc
  rcases List.mem_cons.mp hc with rfl | hc
  · rfl
  · rw [List.eq_of_mem_replicate hc]
    rfl

theorem blanks_nil : Blanks [] := by simp [Blanks]

/-- Elements stand on lines of their own, with commas between them. -/
theorem exists_items_of_write (level : Nat) (v : Json) (vs : List Json) :
    ∃ items : List Item, items ≠ [] ∧ (∀ i ∈ items, i.Spaced) ∧
      (∀ i ∈ items, i.text = write (level + 1) i.value) ∧ items.map (·.value) = v :: vs ∧
        newLine (level + 1) ++ write (level + 1) v ++ writeElements level vs =
          [','].intercalate (items.map Item.all) ++ [']'] := by
  have hbefore := blanks_newLine (level + 1)
  induction vs generalizing v with
  | nil =>
      have hspaced : Item.Spaced ⟨v, newLine (level + 1), write (level + 1) v, newLine level⟩ :=
        ⟨hbefore, blanks_newLine level⟩
      exact ⟨[_], by simp, by simpa using hspaced, by simp, rfl, by simp [Item.all, writeElements]⟩
  | cons w vs ih =>
      obtain ⟨items, hne, hspaced, htext, hvalues, hwrite⟩ := ih w
      refine ⟨⟨v, newLine (level + 1), write (level + 1) v, []⟩ :: items, by simp,
        List.forall_mem_cons.mpr ⟨⟨hbefore, blanks_nil⟩, hspaced⟩,
        List.forall_mem_cons.mpr ⟨rfl, htext⟩, by simp [hvalues], ?_⟩
      obtain ⟨i, items, rfl⟩ := List.exists_cons_of_ne_nil hne
      rw [writeElements, List.cons_append, List.cons_append, hwrite]
      simp [Item.all]

/-- Entries stand on lines of their own, with commas between them. -/
theorem exists_entries_of_write (level : Nat) (key : Option String) (v : Json)
    (entries : List (Option String × Json)) :
    ∃ items : List Entry, items ≠ [] ∧ (∀ e ∈ items, e.Keyed) ∧
      (∀ e ∈ items, e.text = write (level + 1) e.value) ∧
        (items.map fun e => (e.key, e.value)) = (key, v) :: entries ∧
          newLine (level + 1) ++ quote key ++ ':' :: ' ' :: write (level + 1) v ++
              writeEntries level entries =
            [','].intercalate (items.map Entry.whole) ++ ['\x7d'] := by
  have hspace : Blanks [' '] := by simp [Blanks, isBlank]
  have hbefore := blanks_newLine (level + 1)
  induction entries generalizing key v with
  | nil =>
      obtain ⟨text, htext, hquote⟩ := exists_text_of_quote key
      have hkeyed : Entry.Keyed ⟨⟨v, [' '], write (level + 1) v, newLine level⟩, key,
          newLine (level + 1), text, []⟩ :=
        ⟨⟨hspace, blanks_newLine level⟩, hbefore, htext, blanks_nil⟩
      refine ⟨[_], by simp, by simpa using hkeyed, by simp, rfl, ?_⟩
      simp [Entry.whole, Item.all, writeEntries, hquote]
  | cons e entries ih =>
      obtain ⟨items, hne, hkeyeds, htexts, hvalues, hwrite⟩ := ih e.1 e.2
      obtain ⟨text, htext, hquote⟩ := exists_text_of_quote key
      have hkeyed : Entry.Keyed ⟨⟨v, [' '], write (level + 1) v, []⟩, key,
          newLine (level + 1), text, []⟩ := ⟨⟨hspace, blanks_nil⟩, hbefore, htext, blanks_nil⟩
      refine ⟨_ :: items, by simp, List.forall_mem_cons.mpr ⟨hkeyed, hkeyeds⟩,
        List.forall_mem_cons.mpr ⟨rfl, htexts⟩, by simp [hvalues], ?_⟩
      obtain ⟨i, items, rfl⟩ := List.exists_cons_of_ne_nil hne
      rw [writeEntries, List.cons_append, List.cons_append, List.cons_append, hwrite]
      simp [Entry.whole, Item.all, hquote]

/-- A value without decimals is printed as a text of it, at any level. -/
theorem Whole.spells {v : Json} (h : Whole v) (level : Nat) : Spells v (write level v) := by
  induction h generalizing level with
  | null => exact .null
  | bool b => cases b <;> exact .bool _
  | integer n => exact spells_integer n
  | string s? =>
      obtain ⟨text, htext, hquote⟩ := exists_text_of_quote s?
      rw [write, hquote]
      exact .string htext
  | @array vs _ ih =>
      cases vs with
      | nil => exact .noElements blanks_nil
      | cons v vs =>
          obtain ⟨items, hne, hspaced, htext, hvalues, hwrite⟩ := exists_items_of_write level v vs
          have hspells : ∀ i ∈ items, Spells i.value i.text := fun i hi => by
            rw [htext i hi]
            exact ih _ (hvalues ▸ List.mem_map_of_mem hi) (level + 1)
          rw [write, List.cons_append, List.cons_append, hwrite, ← hvalues]
          exact .array hne hspaced hspells
  | @object entries _ ih =>
      cases entries with
      | nil => exact .noEntries blanks_nil
      | cons e entries =>
          obtain ⟨items, hne, hkeyed, htext, hvalues, hwrite⟩ :=
            exists_entries_of_write level e.1 e.2 entries
          have hspells : ∀ i ∈ items, Spells i.value i.text := fun i hi => by
            rw [htext i hi]
            exact ih _ (hvalues ▸ List.mem_map_of_mem hi) (level + 1)
          have hobject := Spells.object hne hkeyed hspells
          rw [hvalues, ← hwrite] at hobject
          exact hobject

/-- Reading undoes printing. -/
theorem read?_pretty {v : Json} (h : Whole v) : read? v.pretty = some v := by
  refine read?_eq_some_iff.mpr ⟨[], write 0 v, [], ?_, blanks_nil, h.spells 0, blanks_nil⟩
  rw [pretty, String.toList_ofList, List.nil_append, List.append_nil]

end Schemata.Json
