/-
A value is read from its texts, and from nothing else.

That a text is read goes by induction on how it spells its value, with the elements of an array
and the entries of an object from the first one on.  That what is read is a text goes by the number
of characters, since the three readers call one another always on fewer of them or, from a
container to its first part, on the same ones in a fixed order.
-/
import Schemata.Proofs.Json.Begins
import Schemata.Proofs.Json.Leaves

namespace Schemata.Json

/-! ### White space -/

section

variable {blanks cs rest : List Char} {c : Char}

theorem skipBlanks_cons (cs : List Char) (hc : isBlank c = false) :
    skipBlanks (c :: cs) = c :: cs := by
  rw [skipBlanks, List.dropWhile_cons_of_neg (by simp [hc])]

theorem skipBlanks_append (h : Blanks blanks) (cs : List Char) :
    skipBlanks (blanks ++ cs) = skipBlanks cs :=
  List.dropWhile_append_of_pos h

theorem skipBlanks_blanks_cons (h : Blanks blanks) (hc : isBlank c = false) (cs : List Char) :
    skipBlanks (blanks ++ c :: cs) = c :: cs := by
  rw [skipBlanks_append h, skipBlanks_cons cs hc]

theorem exists_blanks (cs : List Char) : ∃ blanks, Blanks blanks ∧ cs = blanks ++ skipBlanks cs :=
  ⟨cs.takeWhile isBlank, fun _ hc => List.mem_takeWhile_imp hc,
    List.takeWhile_append_dropWhile.symm⟩

theorem skipBlanks_eq_nil_iff : skipBlanks cs = [] ↔ Blanks cs := List.dropWhile_eq_nil_iff

theorem isBlank_of_digit (h : c.isDigit = true) : isBlank c = false := by
  by_contra hb
  simp only [isBlank, Bool.not_eq_false, Bool.or_eq_true, decide_eq_true_eq] at hb
  rcases hb with ((rfl | rfl) | rfl) | rfl <;> simp at h

theorem ne_of_digit {d : Char} (h : c.isDigit = true) (hd : d.isDigit = false) : c ≠ d := by
  rintro rfl
  simp [hd] at h

/-- White space ends a number. -/
theorem endsNumber_append (h : Blanks blanks) (hrest : EndsNumber rest) :
    EndsNumber (blanks ++ rest) := by
  cases blanks with
  | nil => exact hrest
  | cons b blanks =>
      rintro c ⟨⟩
      have hb := h b List.mem_cons_self
      simp only [isBlank, Bool.or_eq_true, decide_eq_true_eq] at hb
      rcases hb with ((rfl | rfl) | rfl) | rfl <;> decide

theorem endsNumber_cons (hc : c = ',' ∨ c = ']' ∨ c = '\x7d') (cs : List Char) :
    EndsNumber (c :: cs) := by
  rintro d ⟨⟩
  rcases hc with rfl | rfl | rfl <;> decide

end

/-! ### The texts of a value are read -/

/-- Where the text stands, with nothing behind it that would lengthen a number, reading finds the
value. -/
def IsRead (v : Json) (text : List Char) : Prop :=
  ∀ cs rest, EndsNumber rest → skipBlanks cs = text ++ rest → BeginsValue cs v rest

section

variable {v : Json} {text cs rest : List Char}

/-- The text of a value begins with a character that is not blank and closes nothing. -/
theorem Spells.exists_cons (h : Spells v text) :
    ∃ c cs, text = c :: cs ∧ isBlank c = false ∧ c ≠ ']' := by
  cases h with
  | null => exact ⟨_, _, rfl, rfl, by decide⟩
  | bool b => cases b <;> exact ⟨_, _, rfl, rfl, by decide⟩
  | @number negative whole fraction exponent hwhole _ _ =>
      cases negative with
      | true => exact ⟨'-', _, rfl, rfl, by decide⟩
      | false =>
          obtain ⟨d, ds, rfl, hd⟩ := hwhole.exists_cons
          exact ⟨d, _, rfl, isBlank_of_digit hd, ne_of_digit hd rfl⟩
  | string _ => exact ⟨_, _, rfl, rfl, by decide⟩
  | noElements _ => exact ⟨_, _, rfl, rfl, by decide⟩
  | array _ _ _ => exact ⟨_, _, rfl, rfl, by decide⟩
  | noEntries _ => exact ⟨_, _, rfl, rfl, by decide⟩
  | object _ _ _ => exact ⟨_, _, rfl, rfl, by decide⟩

theorem Spells.skipBlanks_append (h : Spells v text) (cs : List Char) :
    skipBlanks (text ++ cs) = text ++ cs := by
  obtain ⟨c, us, rfl, hc, -⟩ := h.exists_cons
  exact skipBlanks_cons _ hc

/-- What begins like a number is tried as a number. -/
theorem scalar?_eq_number? {c : Char} (hc : c = '-' ∨ c.isDigit = true) (cs : List Char) :
    scalar? (c :: cs) = number? (c :: cs) := by
  unfold scalar?
  split <;> simp_all

theorem isRead_number {negative : Bool} {whole fraction exponent : List Char}
    (hwhole : WholePart whole) (hfraction : FractionPart fraction)
    (hexponent : ExponentPart exponent) :
    IsRead (numberOf negative whole (fraction ++ exponent))
      ((if negative then ['-'] else []) ++ (whole ++ (fraction ++ exponent))) := by
  intro cs rest hrest hcs
  have hread := @number?_append negative _ _ _ _ hwhole hfraction hexponent hrest
  obtain ⟨d, ds, rfl, hd⟩ := hwhole.exists_cons
  cases negative with
  | true =>
      refine .scalar hcs (by decide) (by decide) ?_
      rwa [scalar?_eq_number? (.inl rfl)]
  | false =>
      refine .scalar hcs (ne_of_digit hd rfl) (ne_of_digit hd rfl) ?_
      rwa [scalar?_eq_number? (.inr hd)]

theorem isRead_string {s? : Option String} (h : StringText s? text) :
    IsRead (.string s?) ('"' :: (text ++ ['"'])) := by
  intro cs rest _ hcs
  refine .scalar hcs (by decide) (by decide) ?_
  have hread : text? (text ++ '"' :: rest) = some (s?, rest) :=
    text?_eq_some_iff.mpr ⟨text, h, rfl⟩
  simp [scalar?, hread]

/-- A value is read with the white space before it, and the white space behind it is left. -/
theorem Item.begins {i : Item} (hspaced : i.Spaced) (hspells : Spells i.value i.text)
    (hread : IsRead i.value i.text) (hrest : EndsNumber rest) :
    BeginsValue (i.all ++ rest) i.value (i.after ++ rest) := by
  refine hread _ _ (endsNumber_append hspaced.2 hrest) ?_
  rw [Item.all, List.append_assoc, List.append_assoc, Json.skipBlanks_append hspaced.1,
    hspells.skipBlanks_append]

/-- Elements are read from the first one on. -/
theorem beginsElements_of_items {items : List Item} (hne : items ≠ [])
    (hspaced : ∀ i ∈ items, i.Spaced)
    (hread : ∀ i ∈ items, Spells i.value i.text ∧ IsRead i.value i.text) (rest : List Char) :
    BeginsElements ([','].intercalate (items.map Item.all) ++ ']' :: rest) (items.map (·.value))
      rest := by
  induction items with
  | nil => exact absurd rfl hne
  | cons i items ih =>
      obtain ⟨hi, hspaced⟩ := List.forall_mem_cons.mp hspaced
      obtain ⟨⟨hspells, hvalue⟩, hread⟩ := List.forall_mem_cons.mp hread
      cases items with
      | nil =>
          have hlast := Item.begins hi hspells hvalue (endsNumber_cons (.inr (.inl rfl)) rest)
          simpa using BeginsElements.last hlast (skipBlanks_blanks_cons hi.2 rfl rest)
      | cons j items =>
          have hlater := ih (List.cons_ne_nil _ _) hspaced hread
          have hfirst := fun later =>
            Item.begins hi hspells hvalue (endsNumber_cons (.inl rfl) later)
          simpa using BeginsElements.cons (hfirst _) (skipBlanks_blanks_cons hi.2 rfl _) hlater

/-- A key is read through its colon. -/
theorem key?_eq_some_iff {key : Option String} : key? cs = some (key, rest) ↔
    ∃ before text after, Blanks before ∧ StringText key text ∧ Blanks after ∧
      cs = before ++ '"' :: (text ++ '"' :: (after ++ ':' :: rest)) := by
  constructor
  · intro h
    unfold key? at h
    split at h
    case h_2 => cases h
    case h_1 us hcs =>
      obtain ⟨before, hbefore, hsplit⟩ := exists_blanks cs
      split at h
      case h_1 => cases h
      case h_2 key' ws hread =>
        obtain ⟨text, htext, rfl⟩ := text?_eq_some_iff.mp hread
        obtain ⟨after, hafter, hsplit'⟩ := exists_blanks ws
        split at h
        case h_2 => cases h
        case h_1 hws =>
          cases h
          exact ⟨before, text, after, hbefore, htext, hafter, by rw [hsplit, hcs, hsplit', hws]⟩
  · rintro ⟨before, text, after, hbefore, htext, hafter, rfl⟩
    simp only [key?, skipBlanks_blanks_cons hbefore (show isBlank '"' = false from rfl),
      text?_eq_some_iff.mpr ⟨text, htext, rfl⟩,
      skipBlanks_blanks_cons hafter (show isBlank ':' = false from rfl)]

theorem Entry.Keyed.reads {e : Entry} (h : e.Keyed) (rest : List Char) :
    key? (e.whole ++ rest) = some (e.key, e.all ++ rest) :=
  key?_eq_some_iff.mpr ⟨_, _, _, h.before, h.text, h.after, by simp [Entry.whole]⟩

/-- Entries are read from the first one on. -/
theorem beginsEntries_of_entries {entries : List Entry} (hne : entries ≠ [])
    (hkeyed : ∀ e ∈ entries, e.Keyed)
    (hread : ∀ e ∈ entries, Spells e.value e.text ∧ IsRead e.value e.text) (rest : List Char) :
    BeginsEntries ([','].intercalate (entries.map Entry.whole) ++ '\x7d' :: rest)
      (entries.map fun e => (e.key, e.value)) rest := by
  induction entries with
  | nil => exact absurd rfl hne
  | cons e entries ih =>
      obtain ⟨he, hkeyed⟩ := List.forall_mem_cons.mp hkeyed
      obtain ⟨⟨hspells, hvalue⟩, hread⟩ := List.forall_mem_cons.mp hread
      cases entries with
      | nil =>
          have hlast := Item.begins he.spaced hspells hvalue
            (endsNumber_cons (.inr (.inr rfl)) rest)
          simpa using
            BeginsEntries.last (he.reads _) hlast (skipBlanks_blanks_cons he.spaced.2 rfl rest)
      | cons f entries =>
          have hlater := ih (List.cons_ne_nil _ _) hkeyed hread
          have hfirst := fun later =>
            Item.begins he.spaced hspells hvalue (endsNumber_cons (.inl rfl) later)
          simpa using BeginsEntries.cons (he.reads _) (hfirst _)
            (skipBlanks_blanks_cons he.spaced.2 rfl _) hlater

theorem exists_intercalate_cons (cs : List Char) (later : List (List Char)) :
    ∃ more, [','].intercalate (cs :: later) = cs ++ more := by
  cases later with
  | nil => exact ⟨[], by simp⟩
  | cons us later => exact ⟨_, by rw [List.intercalate_cons_cons, List.append_assoc]⟩

/-- A value is read from each of its texts. -/
theorem Spells.isRead (h : Spells v text) : IsRead v text := by
  induction h with
  | null => exact fun cs rest _ hcs => .scalar hcs (by decide) (by decide) rfl
  | bool b => cases b <;> exact fun cs rest _ hcs => .scalar hcs (by decide) (by decide) rfl
  | number hwhole hfraction hexponent => exact isRead_number hwhole hfraction hexponent
  | string h => exact isRead_string h
  | noElements h =>
      intro cs rest _ hcs
      refine .noElements hcs ?_
      rw [List.append_eq, List.append_assoc]
      exact skipBlanks_blanks_cons h rfl rest
  | @array items hne hspaced hspells ih =>
      intro cs rest _ hcs
      have hus := beginsElements_of_items hne hspaced (fun i hi => ⟨hspells i hi, ih i hi⟩) rest
      refine .array hcs (fun ws hws => ?_) (by simpa using hus)
      -- The first element begins behind the bracket, and none begins with the other bracket.
      obtain ⟨i, items, rfl⟩ := List.exists_cons_of_ne_nil hne
      obtain ⟨more, hmore⟩ := exists_intercalate_cons i.all (items.map Item.all)
      obtain ⟨c, us, htext, hblank, hc⟩ := (hspells i List.mem_cons_self).exists_cons
      have hfirst := skipBlanks_blanks_cons (hspaced i List.mem_cons_self).1 hblank
      rw [List.map_cons, hmore] at hws
      simp only [Item.all, htext, List.append_eq, List.append_assoc, List.cons_append,
        hfirst] at hws
      exact hc (List.cons.inj hws).1
  | noEntries h =>
      intro cs rest _ hcs
      refine .noEntries hcs ?_
      rw [List.append_eq, List.append_assoc]
      exact skipBlanks_blanks_cons h rfl rest
  | @object entries hne hkeyed hspells ih =>
      intro cs rest _ hcs
      have hus := beginsEntries_of_entries hne hkeyed (fun e he => ⟨hspells e he, ih e he⟩) rest
      refine .object hcs (fun ws hws => ?_) (by simpa using hus)
      obtain ⟨e, entries, rfl⟩ := List.exists_cons_of_ne_nil hne
      obtain ⟨more, hmore⟩ := exists_intercalate_cons e.whole (entries.map Entry.whole)
      have hfirst := skipBlanks_blanks_cons (hkeyed e List.mem_cons_self).before
        (show isBlank '"' = false from rfl)
      rw [List.map_cons, hmore] at hws
      simp only [Entry.whole, List.append_eq, List.append_assoc, List.cons_append, hfirst] at hws
      exact absurd (List.cons.inj hws).1 (by decide)

end

/-! ### What is read is a text of the value -/

/-- The text begins with a text of the value, perhaps behind white space. -/
def BeginsSpelled (cs : List Char) (v : Json) (rest : List Char) : Prop :=
  ∃ before text, Blanks before ∧ Spells v text ∧ cs = before ++ (text ++ rest)

/-- The text begins with texts of the elements and the bracket that closes them. -/
def BeginsItems (cs : List Char) (vs : List Json) (rest : List Char) : Prop :=
  ∃ items : List Item, items ≠ [] ∧ (∀ i ∈ items, i.Spaced) ∧
    (∀ i ∈ items, Spells i.value i.text) ∧ items.map (·.value) = vs ∧
      cs = [','].intercalate (items.map Item.all) ++ ']' :: rest

/-- The text begins with texts of the entries and the brace that closes them. -/
def BeginsKeyed (cs : List Char) (entries : List (Option String × Json)) (rest : List Char) :
    Prop :=
  ∃ items : List Entry, items ≠ [] ∧ (∀ e ∈ items, e.Keyed) ∧
    (∀ e ∈ items, Spells e.value e.text) ∧ (items.map fun e => (e.key, e.value)) = entries ∧
      cs = [','].intercalate (items.map Entry.whole) ++ '\x7d' :: rest

section

variable {v : Json} {vs : List Json} {entries : List (Option String × Json)}
  {cs us ws rest : List Char}

theorem exists_blanks_cons {c : Char} (h : skipBlanks cs = c :: us) :
    ∃ blanks, Blanks blanks ∧ cs = blanks ++ c :: us := by
  obtain ⟨blanks, hblanks, hcs⟩ := exists_blanks cs
  exact ⟨blanks, hblanks, by rw [hcs, h]⟩

theorem exists_text_of_afterWord? {word : List Char} (h : afterWord? word cs = some rest) :
    cs = word ++ rest := by
  fun_induction afterWord? word cs with
  | case1 => simpa using h
  | case2 _ _ _ ih => rw [ih h, List.cons_append]
  | case3 => cases h
  | case4 => cases h

/-- A value without parts is read from a text of it. -/
theorem exists_text_of_scalar? (h : scalar? cs = some (v, rest)) :
    ∃ text, Spells v text ∧ cs = text ++ rest := by
  have word : ∀ {us rest word : List Char} {v w : Json},
      (afterWord? word us).map (w, ·) = some (v, rest) → v = w ∧ us = word ++ rest := by
    intro us rest word v w h
    obtain ⟨r, hr, he⟩ := Option.map_eq_some_iff.mp h
    obtain ⟨rfl, rfl⟩ := Prod.mk.inj he
    exact ⟨rfl, exists_text_of_afterWord? hr⟩
  unfold scalar? at h
  split at h
  · obtain ⟨⟨s?, r⟩, hread, he⟩ := Option.map_eq_some_iff.mp h
    obtain ⟨rfl, rfl⟩ := Prod.mk.inj he
    obtain ⟨text, htext, rfl⟩ := text?_eq_some_iff.mp hread
    exact ⟨_, .string htext, by simp⟩
  · obtain ⟨rfl, rfl⟩ := word h
    exact ⟨_, .null, rfl⟩
  · obtain ⟨rfl, rfl⟩ := word h
    exact ⟨_, .bool true, rfl⟩
  · obtain ⟨rfl, rfl⟩ := word h
    exact ⟨_, .bool false, rfl⟩
  · exact exists_number_of_number? h

theorem BeginsValue.spelled (h : BeginsValue cs v rest)
    (helements : ∀ {us vs rest}, us.length < cs.length → BeginsElements us vs rest →
      BeginsItems us vs rest)
    (hentries : ∀ {us entries rest}, us.length < cs.length → BeginsEntries us entries rest →
      BeginsKeyed us entries rest) : BeginsSpelled cs v rest := by
  obtain ⟨c, us, hcs, hread⟩ | ⟨us, hcs, ⟨rfl, hus⟩ | ⟨vs, rfl, hvs⟩⟩ |
    ⟨us, hcs, ⟨rfl, hus⟩ | ⟨entries, rfl, hes⟩⟩ := h.cases
  all_goals obtain ⟨before, hbefore, heq⟩ := exists_blanks_cons hcs
  · obtain ⟨text, htext, hsplit⟩ := exists_text_of_scalar? hread
    exact ⟨before, text, hbefore, htext, by rw [heq, hsplit]⟩
  · obtain ⟨blanks, hblanks, rfl⟩ := exists_blanks_cons hus
    exact ⟨before, _, hbefore, .noElements hblanks, by simp [heq]⟩
  · obtain ⟨items, hne, hspaced, hspells, rfl, rfl⟩ := helements (length_of_skipBlanks hcs) hvs
    exact ⟨before, _, hbefore, .array hne hspaced hspells, by simp [heq]⟩
  · obtain ⟨blanks, hblanks, rfl⟩ := exists_blanks_cons hus
    exact ⟨before, _, hbefore, .noEntries hblanks, by simp [heq]⟩
  · obtain ⟨items, hne, hkeyed, hspells, rfl, rfl⟩ := hentries (length_of_skipBlanks hcs) hes
    exact ⟨before, _, hbefore, .object hne hkeyed hspells, by simp [heq]⟩

theorem BeginsElements.items (h : BeginsElements cs vs rest)
    (hvalue : ∀ {v us}, BeginsValue cs v us → BeginsSpelled cs v us)
    (helements : ∀ {ws vs rest}, ws.length < cs.length → BeginsElements ws vs rest →
      BeginsItems ws vs rest) : BeginsItems cs vs rest := by
  obtain ⟨v, us, hv, hlater⟩ := h.cases
  have hlt := hv.shorter
  obtain ⟨before, text, hbefore, htext, rfl⟩ := hvalue hv
  obtain ⟨rfl, hus⟩ | ⟨ws, later, rfl, hus, hws⟩ := hlater
  all_goals obtain ⟨after, hafter, rfl⟩ := exists_blanks_cons hus
  · exact ⟨[⟨v, before, text, after⟩], by simp, by simpa using ⟨hbefore, hafter⟩, by simpa,
      rfl, by simp [Item.all]⟩
  · obtain ⟨items, hne, hspaced, hspells, rfl, rfl⟩ :=
      helements (Nat.lt_trans (length_of_skipBlanks hus) hlt) hws
    refine ⟨⟨v, before, text, after⟩ :: items, by simp,
      List.forall_mem_cons.mpr ⟨⟨hbefore, hafter⟩, hspaced⟩,
      List.forall_mem_cons.mpr ⟨htext, hspells⟩, rfl, ?_⟩
    obtain ⟨i, items, rfl⟩ := List.exists_cons_of_ne_nil hne
    simp [Item.all]

theorem BeginsEntries.keyed (h : BeginsEntries cs entries rest)
    (hvalue : ∀ {us v rest}, us.length < cs.length → BeginsValue us v rest →
      BeginsSpelled us v rest)
    (hentries : ∀ {us entries rest}, us.length < cs.length → BeginsEntries us entries rest →
      BeginsKeyed us entries rest) : BeginsKeyed cs entries rest := by
  obtain ⟨key, xs, v, us, hkey, hv, hlater⟩ := h.cases
  have hlt := hv.shorter
  have hkeylt := key?_shorter hkey
  obtain ⟨before, text, hbefore, htext, rfl⟩ := hvalue hkeylt hv
  obtain ⟨keyBefore, keyText, keyAfter, hkeyBefore, hkeyText, hkeyAfter, rfl⟩ :=
    key?_eq_some_iff.mp hkey
  obtain ⟨rfl, hus⟩ | ⟨ws, later, rfl, hus, hws⟩ := hlater
  all_goals
    obtain ⟨after, hafter, rfl⟩ := exists_blanks_cons hus
    have hkeyed : Entry.Keyed ⟨⟨v, before, text, after⟩, key, keyBefore, keyText, keyAfter⟩ :=
      ⟨⟨hbefore, hafter⟩, hkeyBefore, hkeyText, hkeyAfter⟩
  · exact ⟨[_], by simp, by simpa using hkeyed, by simpa, rfl, by simp [Entry.whole, Item.all]⟩
  · obtain ⟨items, hne, hkeyeds, hspells, rfl, rfl⟩ :=
      hentries (Nat.lt_trans (length_of_skipBlanks hus) (Nat.lt_trans hlt hkeylt)) hws
    refine ⟨_ :: items, by simp, List.forall_mem_cons.mpr ⟨hkeyed, hkeyeds⟩,
      List.forall_mem_cons.mpr ⟨htext, hspells⟩, rfl, ?_⟩
    obtain ⟨e, items, rfl⟩ := List.exists_cons_of_ne_nil hne
    simp [Entry.whole, Item.all]

/-- What the readers read of so many characters is a text of it. -/
theorem spelled_of_begins (n : Nat) :
    (∀ {cs v rest}, cs.length < n → BeginsValue cs v rest → BeginsSpelled cs v rest) ∧
    (∀ {cs vs rest}, cs.length < n → BeginsElements cs vs rest → BeginsItems cs vs rest) ∧
    ∀ {cs entries rest}, cs.length < n → BeginsEntries cs entries rest →
      BeginsKeyed cs entries rest := by
  induction n with
  | zero => exact ⟨by simp, by simp, by simp⟩
  | succ n ih =>
      obtain ⟨hvalue, helements, hentries⟩ := ih
      have value : ∀ {cs v rest}, cs.length < n + 1 → BeginsValue cs v rest →
          BeginsSpelled cs v rest := fun hcs h =>
        h.spelled (fun hus => helements (by omega)) (fun hus => hentries (by omega))
      refine ⟨value, fun hcs h => ?_, fun hcs h => ?_⟩
      · exact h.items (value hcs) (fun hws => helements (by omega))
      · exact h.keyed (fun hus => hvalue (by omega)) (fun hus => hentries (by omega))

/-- **A text is read as a value exactly if it is a text of the value.** -/
theorem read?_eq_some_iff {text : String} : read? text = some v ↔ v.IsTextOf text := by
  constructor
  · intro h
    unfold read? at h
    split at h
    case h_1 => cases h
    case h_2 v' rest hlt hread =>
      split_ifs at h with hrest
      cases h
      have hbegins : BeginsValue text.toList v rest := by
        rw [BeginsValue, hread]
        rfl
      obtain ⟨before, cs, hbefore, hspells, hsplit⟩ :=
        (spelled_of_begins (text.toList.length + 1)).1 (Nat.lt_succ_self _) hbegins
      exact ⟨before, cs, rest, hsplit, hbefore, hspells, skipBlanks_eq_nil_iff.mp hrest⟩
  · rintro ⟨before, cs, after, hsplit, hbefore, hspells, hafter⟩
    have hnil : EndsNumber [] := by simp [EndsNumber]
    have hends : EndsNumber after := by simpa using endsNumber_append hafter hnil
    have hbegins : BeginsValue text.toList v after := by
      refine hspells.isRead _ _ hends ?_
      rw [hsplit, skipBlanks_append hbefore, hspells.skipBlanks_append]
    obtain ⟨⟨_, hlt⟩, hread, rfl⟩ := Option.map_eq_some_iff.mp hbegins
    rw [read?, hread]
    exact if_pos (skipBlanks_eq_nil_iff.mpr hafter)

end

end Schemata.Json
