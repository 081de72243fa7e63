/-
Opening a reader that succeeds.

A reader is a chain of steps, each taking tokens from the front of what the one before it
left.  The lemmas `..._eq_ok` say of each primitive which lists it succeeds on and what
it leaves, so that a success of a production is taken apart step by step; the others run
a step on a list whose front is known.
-/
import Schemata.Schema.Reading

namespace Schemata.Reader

variable {α β : Type} {ts rest : List Located}

/-! ### Steps -/

theorem bind_of_ok {p : Reader α} {f : α → Reader β} {a : α} {mid : List Located}
    (h : p ts = .ok (a, mid)) : (p >>= f) ts = f a mid := by
  show (StateT.bind p f) ts = _
  simp [StateT.bind, bind, Except.bind, h]

theorem bind_of_error {p : Reader α} {f : α → Reader β} {r : Refusal} (h : p ts = .error r) :
    (p >>= f) ts = .error r := by
  show (StateT.bind p f) ts = _
  simp [StateT.bind, bind, Except.bind, h]

theorem bind_eq_ok {p : Reader α} {f : α → Reader β} {b : β} :
    (p >>= f) ts = .ok (b, rest) ↔ ∃ a mid, p ts = .ok (a, mid) ∧ f a mid = .ok (b, rest) := by
  constructor
  · intro h
    cases hp : p ts with
    | error e =>
        change (p ts >>= fun v => f v.1 v.2) = _ at h
        rw [hp] at h
        cases h
    | ok v => exact ⟨v.1, v.2, rfl, (bind_of_ok hp).symm.trans h⟩
  · rintro ⟨a, mid, hp, hf⟩
    rw [bind_of_ok hp, hf]

theorem pure_eq_ok {a b : α} :
    (pure a : Reader α) ts = .ok (b, rest) ↔ a = b ∧ ts = rest := by
  simp [pure_apply]

theorem refuse_ne_ok {fault : Fault} {a : α} : refuse fault ts ≠ .ok (a, rest) := by
  simp [refuse]

theorem line_eq_ok {n : Nat} : line ts = .ok (n, rest) ↔ frontLine ts = n ∧ ts = rest := by
  simp [line]

theorem take_eq_ok {wanted : Expected} {value? : Token → Option α} {a : α} :
    take wanted value? ts = .ok (a, rest) ↔ ∃ t, ts = t :: rest ∧ value? t.token = some a := by
  cases ts with
  | nil => simp [take]
  | cons t ts =>
      cases hv : value? t.token with
      | none =>
          simp only [take, hv, reduceCtorEq, List.cons.injEq, false_iff, not_exists, not_and]
          rintro u ⟨rfl, -⟩
          simp [hv]
      | some v =>
          simp only [take, hv, Except.ok.injEq, Prod.mk.injEq, List.cons.injEq]
          constructor
          · rintro ⟨rfl, rfl⟩
            exact ⟨t, ⟨rfl, rfl⟩, hv⟩
          · rintro ⟨u, ⟨rfl, rfl⟩, hu⟩
            exact ⟨Option.some.inj (hv.symm.trans hu), rfl⟩

theorem take_of_none {wanted : Expected} {value? : Token → Option α} {t : Located}
    (h : value? t.token = none) :
    take wanted value? (t :: ts) = .error ⟨.expected wanted, t :: ts⟩ := by
  simp [take, h]

/-! ### Repetition -/

section

variable {ends : Token → Bool} {item : Reader (List α)} {progress : item.Takes 1}

/-- Before a token that does not end the list stands another item. -/
theorem manyUntil_of_more (h : ends (frontToken ts) = false) :
    manyUntil ends item progress ts =
      (do return (← item) ++ (← manyUntil ends item progress) : Reader (List α)) ts := by
  rw [manyUntil, if_neg (by simp [h])]
  split
  · rename_i r hr
    rw [bind_of_error hr]
  · rename_i now rest hnow
    rw [bind_of_ok hnow]
    show _ = (manyUntil ends item progress rest).bind _
    cases manyUntil ends item progress rest <;> rfl

theorem manyUntil_of_ends (h : ends (frontToken ts) = true) :
    manyUntil ends item progress ts = .ok ([], ts) := by
  rw [manyUntil, if_pos h]

end

end Schemata.Reader
