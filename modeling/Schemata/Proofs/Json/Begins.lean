/-
What the readers of values, elements and entries find.

They hand back a proof along with what they read, so what they read is told without it:
`BeginsValue` says which value a text begins with and what follows it.  There is one rule for each
way to read a value and, the other way round, one lemma that lists the ways, so that nothing else
opens the readers.
-/
import Schemata.Json.Reader

namespace Schemata.Json

/-- The text begins with the value, and this follows it. -/
def BeginsValue (cs : List Char) (v : Json) (rest : List Char) : Prop :=
  (valueOf cs).map (·.val) = some (v, rest)

/-- The text begins with these elements and the bracket that closes them. -/
def BeginsElements (cs : List Char) (vs : List Json) (rest : List Char) : Prop :=
  (elementsOf cs).map (·.val) = some (vs, rest)

/-- The text begins with these entries and the brace that closes them. -/
def BeginsEntries (cs : List Char) (entries : List (Option String × Json)) (rest : List Char) :
    Prop :=
  (entriesOf cs).map (·.val) = some (entries, rest)

section

variable {cs us ws rest : List Char} {c : Char} {v : Json} {vs : List Json}
  {entries : List (Option String × Json)}

theorem BeginsValue.scalar (hcs : skipBlanks cs = c :: us) (ha : c ≠ '[') (ho : c ≠ '\x7b')
    (hv : scalar? (c :: us) = some (v, rest)) : BeginsValue cs v rest := by
  rw [BeginsValue, valueOf]
  split
  case h_1 => simp_all
  case h_2 hcs' => exact absurd (List.cons.inj (hcs.symm.trans hcs')).1 ha
  case h_3 hcs' => exact absurd (List.cons.inj (hcs.symm.trans hcs')).1 ho
  case h_4 hcs' =>
    obtain ⟨rfl, rfl⟩ := List.cons.inj (hcs.symm.trans hcs')
    split <;> simp_all

theorem BeginsValue.noElements (hcs : skipBlanks cs = '[' :: us)
    (hus : skipBlanks us = ']' :: rest) : BeginsValue cs (.array []) rest := by
  rw [BeginsValue, valueOf]
  split
  case h_2 us' hcs' =>
    obtain ⟨-, rfl⟩ := List.cons.inj (hcs.symm.trans hcs')
    dsimp only
    split <;> simp_all
  all_goals simp_all

theorem BeginsValue.array (hcs : skipBlanks cs = '[' :: us)
    (hus : ∀ ws, skipBlanks us ≠ ']' :: ws) (hvs : BeginsElements us vs rest) :
    BeginsValue cs (.array vs) rest := by
  obtain ⟨⟨_, hlt⟩, hread, rfl⟩ := Option.map_eq_some_iff.mp hvs
  rw [BeginsValue, valueOf]
  split
  case h_2 us' hcs' =>
    obtain ⟨-, rfl⟩ := List.cons.inj (hcs.symm.trans hcs')
    dsimp only
    split
    · simp_all
    · rw [hread]
      rfl
  all_goals simp_all

theorem BeginsValue.noEntries (hcs : skipBlanks cs = '\x7b' :: us)
    (hus : skipBlanks us = '\x7d' :: rest) : BeginsValue cs (.object []) rest := by
  rw [BeginsValue, valueOf]
  split
  case h_3 us' hcs' =>
    obtain ⟨-, rfl⟩ := List.cons.inj (hcs.symm.trans hcs')
    dsimp only
    split <;> simp_all
  all_goals simp_all

theorem BeginsValue.object (hcs : skipBlanks cs = '\x7b' :: us)
    (hus : ∀ ws, skipBlanks us ≠ '\x7d' :: ws) (hentries : BeginsEntries us entries rest) :
    BeginsValue cs (.object entries) rest := by
  obtain ⟨⟨_, hlt⟩, hread, rfl⟩ := Option.map_eq_some_iff.mp hentries
  rw [BeginsValue, valueOf]
  split
  case h_3 us' hcs' =>
    obtain ⟨-, rfl⟩ := List.cons.inj (hcs.symm.trans hcs')
    dsimp only
    split
    · simp_all
    · rw [hread]
      rfl
  all_goals simp_all

theorem BeginsElements.last (hv : BeginsValue cs v us) (hus : skipBlanks us = ']' :: rest) :
    BeginsElements cs [v] rest := by
  obtain ⟨⟨_, hlt⟩, hread, rfl⟩ := Option.map_eq_some_iff.mp hv
  rw [BeginsElements, elementsOf, hread]
  dsimp only
  split <;> simp_all

theorem BeginsElements.cons (hv : BeginsValue cs v us) (hus : skipBlanks us = ',' :: ws)
    (hvs : BeginsElements ws vs rest) : BeginsElements cs (v :: vs) rest := by
  obtain ⟨⟨_, hlt⟩, hread, rfl⟩ := Option.map_eq_some_iff.mp hv
  obtain ⟨⟨_, hlt'⟩, hread', rfl⟩ := Option.map_eq_some_iff.mp hvs
  rw [BeginsElements, elementsOf, hread]
  dsimp only
  split
  case h_2 ws' hus' =>
    obtain ⟨-, rfl⟩ := List.cons.inj (hus.symm.trans hus')
    rw [hread']
    rfl
  all_goals simp_all

theorem BeginsEntries.last {key : Option String} (hkey : key? cs = some (key, ws))
    (hv : BeginsValue ws v us) (hus : skipBlanks us = '\x7d' :: rest) :
    BeginsEntries cs [(key, v)] rest := by
  obtain ⟨⟨_, hlt⟩, hread, rfl⟩ := Option.map_eq_some_iff.mp hv
  rw [BeginsEntries, entriesOf]
  split
  case h_1 => simp_all
  case h_2 hkey' =>
    obtain ⟨rfl, rfl⟩ := Prod.mk.inj (Option.some.inj (hkey.symm.trans hkey'))
    rw [hread]
    dsimp only
    split <;> simp_all

theorem BeginsEntries.cons {key : Option String} {xs : List Char}
    (hkey : key? cs = some (key, ws)) (hv : BeginsValue ws v us)
    (hus : skipBlanks us = ',' :: xs) (hentries : BeginsEntries xs entries rest) :
    BeginsEntries cs ((key, v) :: entries) rest := by
  obtain ⟨⟨_, hlt⟩, hread, rfl⟩ := Option.map_eq_some_iff.mp hv
  obtain ⟨⟨_, hlt'⟩, hread', rfl⟩ := Option.map_eq_some_iff.mp hentries
  rw [BeginsEntries, entriesOf]
  split
  case h_1 => simp_all
  case h_2 hkey' =>
    obtain ⟨rfl, rfl⟩ := Prod.mk.inj (Option.some.inj (hkey.symm.trans hkey'))
    rw [hread]
    dsimp only
    split
    case h_2 hus' =>
      obtain ⟨-, rfl⟩ := List.cons.inj (hus.symm.trans hus')
      rw [hread']
      rfl
    all_goals simp_all

/-- The ways a value is read. -/
theorem BeginsValue.cases (h : BeginsValue cs v rest) :
    (∃ c us, skipBlanks cs = c :: us ∧ scalar? (c :: us) = some (v, rest)) ∨
    (∃ us, skipBlanks cs = '[' :: us ∧ (v = .array [] ∧ skipBlanks us = ']' :: rest ∨
      ∃ vs, v = .array vs ∧ BeginsElements us vs rest)) ∨
    (∃ us, skipBlanks cs = '\x7b' :: us ∧ (v = .object [] ∧ skipBlanks us = '\x7d' :: rest ∨
      ∃ entries, v = .object entries ∧ BeginsEntries us entries rest)) := by
  rw [BeginsValue, valueOf] at h
  split at h
  case h_1 => cases h
  case h_2 us hcs =>
    refine .inr (.inl ⟨us, hcs, ?_⟩)
    dsimp only at h
    split at h
    case h_1 hus =>
      cases h
      exact .inl ⟨rfl, hus⟩
    case h_2 =>
      split at h
      · cases h
      · rename_i hread
        cases h
        exact .inr ⟨_, rfl, by rw [BeginsElements, hread]; rfl⟩
  case h_3 us hcs =>
    refine .inr (.inr ⟨us, hcs, ?_⟩)
    dsimp only at h
    split at h
    case h_1 hus =>
      cases h
      exact .inl ⟨rfl, hus⟩
    case h_2 =>
      split at h
      · cases h
      · rename_i hread
        cases h
        exact .inr ⟨_, rfl, by rw [BeginsEntries, hread]; rfl⟩
  case h_4 c us _ _ hcs =>
    split at h
    · cases h
    · rename_i hread
      cases h
      exact .inl ⟨c, us, hcs, hread⟩

/-- Elements are read from the first on, up to a bracket or past a comma. -/
theorem BeginsElements.cases (h : BeginsElements cs vs rest) :
    ∃ v us, BeginsValue cs v us ∧ (vs = [v] ∧ skipBlanks us = ']' :: rest ∨
      ∃ ws later, vs = v :: later ∧ skipBlanks us = ',' :: ws ∧ BeginsElements ws later rest) := by
  rw [BeginsElements, elementsOf] at h
  split at h
  case h_1 => cases h
  case h_2 v us hlt hread =>
    refine ⟨v, us, by rw [BeginsValue, hread]; rfl, ?_⟩
    dsimp only at h
    split at h
    case h_1 hus =>
      cases h
      exact .inl ⟨rfl, hus⟩
    case h_2 ws hus =>
      split at h
      · cases h
      · rename_i hlater
        cases h
        exact .inr ⟨ws, _, rfl, hus, by rw [BeginsElements, hlater]; rfl⟩
    case h_3 => cases h

/-- Entries are read from the first on, up to a brace or past a comma. -/
theorem BeginsEntries.cases (h : BeginsEntries cs entries rest) :
    ∃ key xs v us, key? cs = some (key, xs) ∧ BeginsValue xs v us ∧
      (entries = [(key, v)] ∧ skipBlanks us = '\x7d' :: rest ∨
        ∃ ws later, entries = (key, v) :: later ∧ skipBlanks us = ',' :: ws ∧
          BeginsEntries ws later rest) := by
  rw [BeginsEntries, entriesOf] at h
  split at h
  case h_1 => cases h
  case h_2 key xs hkey =>
    dsimp only at h
    split at h
    case h_1 => cases h
    case h_2 v us hlt hread =>
      refine ⟨key, xs, v, us, hkey, by rw [BeginsValue, hread]; rfl, ?_⟩
      split at h
      case h_1 hus =>
        cases h
        exact .inl ⟨rfl, hus⟩
      case h_2 ws hus =>
        split at h
        · cases h
        · rename_i hlater
          cases h
          exact .inr ⟨ws, _, rfl, hus, by rw [BeginsEntries, hlater]; rfl⟩
      case h_3 => cases h

theorem BeginsValue.shorter (h : BeginsValue cs v rest) : rest.length < cs.length := by
  obtain ⟨⟨_, hlt⟩, -, rfl⟩ := Option.map_eq_some_iff.mp h
  exact hlt

end

end Schemata.Json
