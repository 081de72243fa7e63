/-
Steps that may fail.

A chain of steps succeeds only if each of them does, each on what the one before it
left.  These lemmas open a success one step at a time; failures are never opened, since
every step hands them on unchanged.
-/

namespace Schemata.Fallible

variable {ε ε' α β : Type}

theorem bind_eq_ok {x : Except ε α} {f : α → Except ε β} {b : β} :
    (x >>= f) = .ok b ↔ ∃ a, x = .ok a ∧ f a = .ok b := by
  cases x with
  | error e => simp [bind, Except.bind]
  | ok a => simp [bind, Except.bind]

theorem map_eq_ok {x : Except ε α} {f : α → β} {b : β} :
    x.map f = .ok b ↔ ∃ a, x = .ok a ∧ f a = b := by
  cases x with
  | error e => simp [Except.map]
  | ok a => simp [Except.map]

@[simp] theorem mapError_ok (a : α) (f : ε → ε') :
    (Except.ok a : Except ε α).mapError f = .ok a := rfl

@[simp] theorem mapError_error (e : ε) (f : ε → ε') :
    (Except.error e : Except ε α).mapError f = .error (f e) := rfl

theorem mapError_eq_ok {x : Except ε α} {f : ε → ε'} {a : α} :
    x.mapError f = .ok a ↔ x = .ok a := by
  cases x with
  | error e => exact ⟨nofun, nofun⟩
  | ok b => exact ⟨fun h => by cases h; rfl, fun h => by cases h; rfl⟩

theorem foldlM_cons_eq_ok {step : β → α → Except ε β} {x : α} {xs : List α} {s t : β} :
    (x :: xs).foldlM step s = .ok t ↔ ∃ m, step s x = .ok m ∧ xs.foldlM step m = .ok t := by
  rw [List.foldlM_cons, bind_eq_ok]

/-- What each of the steps taken keeps, all of them keep. -/
theorem foldlM_preserves_mem {step : β → α → Except ε β} {P : β → Prop} {xs : List α} {s t : β}
    (hstep : ∀ {s t : β} {x : α}, x ∈ xs → P s → step s x = .ok t → P t) (hs : P s)
    (h : xs.foldlM step s = .ok t) : P t := by
  induction xs generalizing s with
  | nil =>
      cases h
      exact hs
  | cons x xs ih =>
      obtain ⟨m, hx, hxs⟩ := foldlM_cons_eq_ok.mp h
      exact ih (fun hy => hstep (List.mem_cons_of_mem _ hy)) (hstep List.mem_cons_self hs hx) hxs

/-- What holds before a step and after it holds after any number of steps. -/
theorem foldlM_preserves {step : β → α → Except ε β} {P : β → Prop}
    (hstep : ∀ {s t : β} {x : α}, P s → step s x = .ok t → P t) {xs : List α} {s t : β}
    (hs : P s) (h : xs.foldlM step s = .ok t) : P t :=
  foldlM_preserves_mem (fun _ => hstep) hs h

/-- Two runs whose steps do the same on the elements there are end alike. -/
theorem foldlM_congr_mem {step step' : β → α → Except ε β} {xs : List α} {s : β}
    (h : ∀ x ∈ xs, ∀ s, step s x = step' s x) : xs.foldlM step s = xs.foldlM step' s := by
  induction xs generalizing s with
  | nil => rfl
  | cons x xs ih =>
      obtain ⟨hx, hxs⟩ := List.forall_mem_cons.mp h
      rw [List.foldlM_cons, List.foldlM_cons, hx s]
      exact bind_congr fun _ => ih hxs

/-- If the steps of one run succeed wherever those of another do, on the elements there, so does
the run. -/
theorem foldlM_eq_ok_of_mem {step step' : β → α → Except ε β} {xs : List α} {s t : β}
    (h : ∀ x ∈ xs, ∀ s t, step s x = .ok t → step' s x = .ok t) (hrun : xs.foldlM step s = .ok t) :
    xs.foldlM step' s = .ok t := by
  induction xs generalizing s with
  | nil => exact hrun
  | cons x xs ih =>
      obtain ⟨hx, hxs⟩ := List.forall_mem_cons.mp h
      obtain ⟨m, hstep, hrest⟩ := foldlM_cons_eq_ok.mp hrun
      exact foldlM_cons_eq_ok.mpr ⟨m, hx s m hstep, ih hxs hrest⟩

/-- Two runs whose steps succeed alike on the elements there succeed alike. -/
theorem foldlM_eq_ok_congr_mem {step step' : β → α → Except ε β} {xs : List α} {s t : β}
    (h : ∀ x ∈ xs, ∀ s t, step s x = .ok t ↔ step' s x = .ok t) :
    xs.foldlM step s = .ok t ↔ xs.foldlM step' s = .ok t :=
  ⟨foldlM_eq_ok_of_mem fun x hx s t => (h x hx s t).mp,
    foldlM_eq_ok_of_mem fun x hx s t => (h x hx s t).mpr⟩

theorem toOption_eq_some {x : Except ε α} {a : α} : x.toOption = some a ↔ x = .ok a := by
  cases x with
  | error e => simp [Except.toOption]
  | ok b => simp [Except.toOption]

/-- The value, unless there are faults: then the first of them. -/
def checked (faults : List ε) (a : α) : Except ε α :=
  match faults with
  | [] => .ok a
  | e :: _ => .error e

@[simp] theorem checked_nil (a : α) : checked ([] : List ε) a = .ok a := rfl

@[simp] theorem checked_cons (e : ε) (faults : List ε) (a : α) :
    checked (e :: faults) a = .error e := rfl

/-- The faults of two steps in a row are those of the first and then those of the second. -/
theorem checked_bind (faults : List ε) (a : α) {f : α → Except ε β} {later : List ε} {b : β}
    (hf : f a = checked later b) : (checked faults a >>= f) = checked (faults ++ later) b := by
  cases faults with
  | nil => exact hf
  | cons e faults => rfl

theorem checked_map (faults : List ε) (a : α) (f : α → β) :
    (do return f (← checked faults a)) = checked faults (f a) := by
  cases faults with
  | nil => rfl
  | cons e faults => rfl

theorem checked_eq_ok {faults : List ε} {a b : α} :
    checked faults a = .ok b ↔ faults = [] ∧ a = b := by
  cases faults <;> simp

theorem checked_eq_error {faults : List ε} {a : α} {e : ε} :
    checked faults a = .error e ↔ faults.head? = some e := by
  cases faults <;> simp

theorem toOption_checked (faults : List ε) (a : α) :
    (checked faults a).toOption = if faults = [] then some a else none := by
  cases faults <;> rfl

/-- A step that answers nothing but that it succeeds. -/
theorem eq_ok_of_isOk {x : Except ε Unit} (h : x.isOk = true) : x = .ok () := by
  cases x with
  | error e => cases h
  | ok a => rfl

end Schemata.Fallible
