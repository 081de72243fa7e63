/-
Where a reader stops.

A reader that refuses a list stands at a token.  `Pinpoints` says that this is the first
token that spoils the list: those before it begin a tree of the production, and since the
reader has looked at no token behind it, whatever stands there changes nothing about the
refusal.  A reader that succeeds looks no further either, at the one token behind the tree
it has read; so one reader can follow another without either of them losing its place.

The lemmas go by the ways productions are put together, like those about reading itself.
Here they are told for one list at a time, because the readers that repeat need it for
shorter lists only.
-/
import Schemata.Proofs.Grammar.Reads
import Schemata.Proofs.Token.Lexemes

namespace Schemata

variable {α β γ : Type}

/-- The tokens can be completed to a tree, by tokens that a text can have. -/
def Production.Begun (A : Production α) (used : List Located) : Prop :=
  ∃ d tail, A.tokens d = used ++ tail ∧ ∀ t ∈ tail, t.token.IsLexeme

namespace Reader

/-! ### How a reader ends -/

/-- The tokens left. -/
def left : Except Refusal (α × List Located) → List Located
  | .ok (_, rest) => rest
  | .error r => r.rest

/-- The same end with other tokens left. -/
def leaving (other : List Located) :
    Except Refusal (α × List Located) → Except Refusal (α × List Located)
  | .ok (a, _) => .ok (a, other)
  | .error r => .error { r with rest := other }

/-- Of the list `ts` the reader takes the tokens `used`.  It looks at the token behind them
at most, and if it refuses that one, those before it begin a tree. -/
structure Ends (p : Reader α) (A : Production β) (ts used : List Located) : Prop where
  split : ts = used ++ left (p ts)
  prompt : ∀ other, other.head? = (left (p ts)).head? → p (used ++ other) = leaving other (p ts)
  viable : ∀ r, p ts = .error r → A.Begun used

/-- On the list `ts` the reader ends so. -/
def PinpointsAt (p : Reader α) (A : Production β) (ts : List Located) : Prop :=
  ∃ used, p.Ends A ts used

/-- There is a tree, and on every list the reader stops at the first token that spoils it. -/
structure Pinpoints (p : Reader α) (A : Production β) : Prop where
  inhabited : A.Begun []
  ends : ∀ ts, p.PinpointsAt A ts

end Reader

open Reader

namespace Production

variable {A : Production α} {B : Production β} {used : List Located}

theorem Begun.map {f : α → β} (h : A.Begun used) : (A.map f).Begun used := h

theorem Begun.lined (h : A.Begun used) : A.lined.Begun used := h

/-- What begins the first part begins both, if there is a second one. -/
theorem Begun.seq (h : A.Begun used) (hB : B.Begun []) : (A.seq B).Begun used := by
  obtain ⟨d, tail, hd, htail⟩ := h
  obtain ⟨e, tail', he, htail'⟩ := hB
  refine ⟨(d, e), tail ++ tail', ?_, ?_⟩
  · show A.tokens d ++ B.tokens e = _
    rw [hd, he, List.nil_append, List.append_assoc]
  · intro t ht
    exact (List.mem_append.mp ht).elim (htail t) (htail' t)

/-- Behind a first part begins the second. -/
theorem Begun.behind (d : A.Tree) (h : B.Begun used) : (A.seq B).Begun (A.tokens d ++ used) := by
  obtain ⟨e, tail, he, htail⟩ := h
  refine ⟨(d, e), tail, ?_, htail⟩
  show A.tokens d ++ B.tokens e = _
  rw [he, List.append_assoc]

theorem Begun.choice {ι : Type} {A : ι → Production α} (i : ι) (h : (A i).Begun used) :
    (choice A).Begun used := by
  obtain ⟨d, tail, hd, htail⟩ := h
  exact ⟨⟨i, d⟩, tail, hd, htail⟩

theorem Begun.opt (h : A.Begun used) : A.opt.Begun used := by
  obtain ⟨d, tail, hd, htail⟩ := h
  exact ⟨some d, tail, hd, htail⟩

theorem begun_opt (A : Production α) : A.opt.Begun [] := ⟨none, [], rfl, by simp⟩

theorem begun_many (A : Production α) : A.many.Begun [] := ⟨[], [], rfl, by simp⟩

/-- What begins one part and others behind it begins a part that repeats. -/
theorem Begun.many (h : (A.seq A.many).Begun used) : A.many.Begun used := by
  obtain ⟨⟨d, ds⟩, tail, hd, htail⟩ := h
  exact ⟨d :: ds, tail, hd, htail⟩

theorem begun_token {value? : Token → Option α} {t : Token} (ht : t.IsLexeme)
    (hvalue : (value? t).isSome) : (token value?).Begun [] := by
  refine ⟨⟨⟨t, .start⟩, hvalue⟩, [⟨t, .start⟩], rfl, ?_⟩
  intro u hu
  rwa [List.mem_singleton.mp hu]

end Production

namespace Reader

open Production

variable {p q : Reader α} {A : Production α} {B : Production β} {stops : Token → Prop}
  {ts used : List Located}

/-! ### One list -/

theorem frontToken_congr {us : List Located} (h : us.head? = ts.head?) :
    frontToken us = frontToken ts := by
  cases us <;> cases ts <;> simp_all [frontToken]

theorem frontLine_congr {us : List Located} (h : us.head? = ts.head?) :
    frontLine us = frontLine ts := by
  cases us <;> cases ts <;> simp_all [frontLine]

/-- Behind the same tokens stands the same one if it does so without them. -/
theorem head?_append_congr {other rest : List Located} (h : other.head? = rest.head?) :
    (used ++ other).head? = (used ++ rest).head? := by
  cases used with
  | nil => exact h
  | cons t used => rfl

/-- A reader that takes nothing and looks at nothing. -/
theorem pinpointsAt_pure (a : α) (B : Production β) : (pure a : Reader α).PinpointsAt B ts :=
  ⟨[], rfl, fun _ _ => rfl, fun _ h => by cases h⟩

/-- A reader that refuses every list. -/
theorem pinpointsAt_refuse (fault : Fault) (h : B.Begun []) :
    (refuse fault : Reader α).PinpointsAt B ts :=
  ⟨[], rfl, fun _ _ => rfl, fun _ _ => h⟩

/-- The next token tells which reader it is. -/
theorem PinpointsAt.ofFront (h : q.PinpointsAt B ts)
    (heq : ∀ us : List Located, us.head? = ts.head? → p us = q us) : p.PinpointsAt B ts := by
  obtain ⟨used, hsplit, hprompt, hviable⟩ := h
  have hts : p ts = q ts := heq ts rfl
  refine ⟨used, ?_, ?_, ?_⟩
  · rw [hts]
    exact hsplit
  · intro other hother
    rw [hts] at hother ⊢
    rw [heq, hprompt other hother]
    rw [head?_append_congr hother, ← hsplit]
  · intro r hr
    exact hviable r (hts.symm.trans hr)

/-- The reader ends alike for a production that more tokens begin. -/
theorem PinpointsAt.mono {C : Production γ} (h : p.PinpointsAt B ts)
    (hle : ∀ used, B.Begun used → C.Begun used) : p.PinpointsAt C ts := by
  obtain ⟨used, hsplit, hprompt, hviable⟩ := h
  exact ⟨used, hsplit, hprompt, fun r hr => hle used (hviable r hr)⟩

/-- One reader ends where it would alone, or where the next one does. -/
theorem PinpointsAt.seq {f : α → Reader γ} (hA : p.PinpointsAt A ts) (hread : Reads p A stops)
    (hinhabited : B.Begun [])
    (hB : ∀ a mid, p ts = .ok (a, mid) → (f a).PinpointsAt B mid) :
    (p >>= f).PinpointsAt (A.seq B) ts := by
  obtain ⟨used, hsplit, hprompt, hviable⟩ := hA
  cases hp : p ts with
  | error r =>
      rw [hp] at hsplit hprompt
      refine ⟨used, ?_, ?_, ?_⟩
      · rw [bind_of_error hp]
        exact hsplit
      · intro other hother
        rw [bind_of_error hp] at hother ⊢
        exact bind_of_error (hprompt other hother)
      · intro _ _
        exact (hviable r hp).seq hinhabited
  | ok v =>
      obtain ⟨a, mid⟩ := v
      obtain ⟨more, hmid, hprompt', hviable'⟩ := hB a mid hp
      rw [hp] at hsplit hprompt
      change ts = used ++ mid at hsplit
      refine ⟨used ++ more, ?_, ?_, ?_⟩
      · rw [bind_of_ok hp, List.append_assoc, ← hmid]
        exact hsplit
      · intro other hother
        rw [bind_of_ok hp] at hother ⊢
        have hhead : (more ++ other).head? = mid.head? := by
          rw [head?_append_congr hother, ← hmid]
        rw [List.append_assoc, bind_of_ok (hprompt _ hhead), hprompt' other hother]
      · intro r hr
        rw [bind_of_ok hp] at hr
        obtain ⟨d, hd, -⟩ := hread.sound hp
        obtain rfl : used = A.tokens d := List.append_cancel_right (hsplit.symm.trans hd)
        exact .behind d (hviable' r hr)

/-- Making a value of another one looks at no token. -/
theorem PinpointsAt.last {v : α → γ} (h : p.PinpointsAt B ts) :
    (p >>= fun a => pure (v a)).PinpointsAt B ts := by
  obtain ⟨used, hsplit, hprompt, hviable⟩ := h
  refine ⟨used, ?_⟩
  cases hp : p ts with
  | error r =>
      rw [hp] at hsplit hprompt
      have hall : (p >>= fun a => pure (v a)) ts = .error r := bind_of_error hp
      refine ⟨?_, ?_, fun _ _ => hviable r hp⟩
      · rw [hall]
        exact hsplit
      · intro other hother
        rw [hall] at hother ⊢
        exact bind_of_error (hprompt other hother)
  | ok w =>
      obtain ⟨a, mid⟩ := w
      rw [hp] at hsplit hprompt
      have hall : (p >>= fun a => pure (v a)) ts = .ok (v a, mid) := bind_of_ok hp
      refine ⟨?_, ?_, ?_⟩
      · rw [hall]
        exact hsplit
      · intro other hother
        rw [hall] at hother ⊢
        exact bind_of_ok (hprompt other hother)
      · intro r hr
        rw [hall] at hr
        cases hr

/-! ### Tokens and sequences -/

namespace Pinpoints

/-- A reader that takes one token or refuses it. -/
theorem ofToken (hB : B.Begun []) {fault : Fault} (hnil : p [] = .error ⟨fault, []⟩)
    (hcons : ∀ t, (∃ a, ∀ ts, p (t :: ts) = .ok (a, ts)) ∨
      ∃ fault, ∀ ts, p (t :: ts) = .error ⟨fault, t :: ts⟩) : Pinpoints p B where
  inhabited := hB
  ends ts := by
    cases ts with
    | nil =>
        refine (pinpointsAt_refuse fault hB).ofFront fun us hus => ?_
        obtain rfl : us = [] := List.head?_eq_none_iff.mp hus
        exact hnil
    | cons t ts =>
        rcases hcons t with ⟨a, htake⟩ | ⟨fault, hrefuse⟩
        · refine ⟨[t], ?_, ?_, ?_⟩
          · rw [htake]
            rfl
          · intro other _
            rw [htake]
            exact htake other
          · intro r hr
            rw [htake] at hr
            cases hr
        · refine (pinpointsAt_refuse fault hB).ofFront fun us hus => ?_
          obtain ⟨more, rfl⟩ := List.head?_eq_some_iff.mp hus
          exact hrefuse more

theorem take (wanted : Expected) {value? : Token → Option α} {t : Token} (ht : t.IsLexeme)
    (hvalue : (value? t).isSome) : Pinpoints (Reader.take wanted value?) (token value?) := by
  refine ofToken (begun_token ht hvalue) rfl fun u => ?_
  cases hu : value? u.token with
  | some a => exact .inl ⟨a, fun ts => take_eq_ok.mpr ⟨u, rfl, hu⟩⟩
  | none => exact .inr ⟨.expected wanted, fun ts => take_of_none hu⟩

theorem expect {t : Token} (ht : t.IsLexeme) : Pinpoints (Reader.expect t) (exactly t) :=
  take _ ht (by simp)

theorem punct {c : Punct} : Pinpoints (Reader.expect (.punct c)) (.punct c) := expect trivial

theorem keyword {k : Keyword} : Pinpoints (Reader.expect (.keyword k)) (.keyword k) :=
  expect trivial

/-- One part is read after another. -/
theorem seq {f : α → Reader γ} {v : α × β → γ} (hA : Pinpoints p A) (hread : Reads p A stops)
    (hB : ∀ a, Pinpoints (f a) (B.map fun b => v (a, b))) :
    Pinpoints (p >>= f) ((A.seq B).map v) := by
  have hinhabited : B.Begun [] := by
    obtain ⟨d, -⟩ := hA.inhabited
    exact (hB (A.value d)).inhabited
  refine ⟨hA.inhabited.seq hinhabited, fun ts => ?_⟩
  have hends := (hA.ends ts).seq hread hinhabited fun a mid _ => ((hB a).ends mid).mono fun _ => id
  exact hends.mono fun _ => Begun.map

/-- The last part is read, and a value is made of all. -/
theorem last {v : α → β} (h : Pinpoints p A) :
    Pinpoints (p >>= fun a => pure (v a)) (A.map v) where
  inhabited := h.inhabited
  ends ts := (h.ends ts).last.mono fun _ => Begun.map

/-- The line of a part is that of its first token. -/
theorem lined {f : Nat → Reader γ} {v : Nat × β → γ}
    (hB : ∀ n, Pinpoints (f n) (B.map fun b => v (n, b))) :
    Pinpoints (Reader.line >>= f) (B.lined.map v) where
  inhabited := (hB 0).inhabited
  ends ts := by
    have hends := ((hB (frontLine ts)).ends ts).ofFront (p := Reader.line >>= f)
      fun us hus => congrArg (f · us) (frontLine_congr hus)
    exact hends.mono fun _ => Begun.lined

/-! ### Choices -/

/-- One of several parts is read, if the next token tells which; if it tells none, the
reader refuses it. -/
theorem choice {ι : Type} {A : ι → Production α} (kind : Token → Option ι) (fault : Fault)
    (i : ι) (hbranch : ∀ i, ∃ q, Pinpoints q (A i) ∧
      ∀ ts, kind (frontToken ts) = some i → p ts = q ts)
    (hnone : ∀ ts, kind (frontToken ts) = none → p ts = refuse fault ts) :
    Pinpoints p (.choice A) := by
  have hinhabited : (Production.choice A).Begun [] := by
    obtain ⟨q, hq, -⟩ := hbranch i
    exact hq.inhabited.choice i
  refine ⟨hinhabited, fun ts => ?_⟩
  cases hkind : kind (frontToken ts) with
  | none =>
      refine (pinpointsAt_refuse fault hinhabited).ofFront fun us hus => hnone us ?_
      rw [frontToken_congr hus, hkind]
  | some j =>
      obtain ⟨q, hq, hp⟩ := hbranch j
      refine ((hq.ends ts).ofFront fun us hus => hp us ?_).mono fun _ => Begun.choice j
      rw [frontToken_congr hus, hkind]

/-- A part that may be missing is read if its first token is there. -/
theorem opt {q r : Reader γ} {v : Option α → γ} (first : Token → Prop)
    (hq : Pinpoints q (A.map fun a => v (some a)))
    (hthere : ∀ ts, first (frontToken ts) → r ts = q ts)
    (hmissing : ∀ ts, ¬ first (frontToken ts) → r ts = .ok (v none, ts)) :
    Pinpoints r (A.opt.map v) := by
  refine ⟨begun_opt A, fun ts => ?_⟩
  by_cases hfirst : first (frontToken ts)
  · refine ((hq.ends ts).ofFront fun us hus => hthere us ?_).mono fun _ => Begun.opt
    rwa [frontToken_congr hus]
  · refine (pinpointsAt_pure (v none) _).ofFront fun us hus => hmissing us ?_
    rwa [frontToken_congr hus]

/-- A token that may be missing is read if it has a value. -/
theorem optToken {r : Reader γ} {value? : Token → Option α} {v : Option α → γ} {t : Token}
    (ht : t.IsLexeme) (hvalue : (value? t).isSome) (heof : value? .eof = none)
    (hnil : r [] = .ok (v none, []))
    (hcons : ∀ t ts, r (t :: ts) = match value? t.token with
      | some a => .ok (v (some a), ts)
      | none => .ok (v none, t :: ts)) :
    Pinpoints r ((token value?).opt.map v) := by
  refine opt (fun t => (value? t).isSome) (take .declaration ht hvalue).last ?_ ?_
  · intro ts hts
    cases ts with
    | nil => simp [frontToken, heof] at hts
    | cons t ts =>
        obtain ⟨a, ha⟩ := Option.isSome_iff_exists.mp hts
        have ha : value? t.token = some a := ha
        rw [Reader.bind_of_ok (Reader.take_eq_ok.mpr ⟨t, rfl, ha⟩), hcons, ha]
        rfl
  · intro ts hts
    cases ts with
    | nil => exact hnil
    | cons t ts =>
        have hnone : value? t.token = none := by simpa [frontToken] using hts
        rw [hcons, hnone]

/-! ### Repetition -/

/-- A reader that repeats takes parts, each as it would alone, and ends where none
begins. -/
theorem loop {r : Reader γ} {C : Production β} {join : α → γ → γ} (first : Token → Prop)
    (hq : Pinpoints q A) (hread : Reads q A stops) (hbegins : A.Begins first)
    (hmore : ∀ ts, first (frontToken ts) → r ts = (do return join (← q) (← r) : Reader γ) ts)
    (hinhabited : C.Begun []) (hjoin : ∀ used, (A.seq C).Begun used → C.Begun used)
    (hdone : ∀ ts, ¬ first (frontToken ts) → r.PinpointsAt C ts) : Pinpoints r C := by
  refine ⟨hinhabited, fun ts => ?_⟩
  induction hlength : ts.length using Nat.strongRecOn generalizing ts with
  | ind n ih =>
      by_cases hfirst : first (frontToken ts)
      · have hlater : ∀ a mid, q ts = .ok (a, mid) →
            (r >>= fun c => pure (join a c)).PinpointsAt C mid := by
          intro a mid hmid
          obtain ⟨d, rfl, -⟩ := hread.sound hmid
          have hpos := hbegins.length_pos d
          rw [List.length_append] at hlength
          exact (ih mid.length (by omega) mid rfl).last
        have hall := ((hq.ends ts).seq hread hinhabited hlater).mono hjoin
        refine hall.ofFront fun us hus => hmore us ?_
        rwa [frontToken_congr hus]
      · exact hdone ts hfirst

/-- A part that repeats is read again for as long as its first token is there. -/
theorem many {r : Reader γ} {v : List α → γ} {join : α → γ → γ} (first : Token → Prop)
    (hq : Pinpoints q A) (hread : Reads q A stops) (hbegins : A.Begins first)
    (hmore : ∀ ts, first (frontToken ts) → r ts = (do return join (← q) (← r) : Reader γ) ts)
    (hdone : ∀ ts, ¬ first (frontToken ts) → r ts = .ok (v [], ts)) :
    Pinpoints r (A.many.map v) := by
  refine loop first hq hread hbegins hmore (begun_many A) (fun _ => Begun.many) fun ts hts => ?_
  refine (pinpointsAt_pure (v []) _).ofFront fun us hus => hdone us ?_
  rwa [frontToken_congr hus]

/-- Items are read until a token that ends them. -/
theorem manyUntil {ends : Token → Bool} {item : Reader (List α)} {progress : item.Takes 1}
    {A : Production (List α)} (hq : Pinpoints item A) (hread : Reads item A Always)
    (hbegins : A.Begins fun t => ends t = false) :
    Pinpoints (Reader.manyUntil ends item progress) (A.many.map List.flatten) := by
  refine many (fun t => ends t = false) hq hread hbegins (fun _ => manyUntil_of_more) ?_
  exact fun ts hts => manyUntil_of_ends (by simpa using hts)

/-- A part that repeats is read up to what stands behind all of them. -/
theorem manyThen {q : Reader α} {p : Reader γ} {r : Reader γ} {v : List α × β → γ}
    {join : α → γ → γ} (first : Token → Prop) (hq : Pinpoints q A) (hread : Reads q A stops)
    (hbegins : A.Begins first) (hp : Pinpoints p (B.map fun b => v ([], b)))
    (hmore : ∀ ts, first (frontToken ts) → r ts = (do return join (← q) (← r) : Reader γ) ts)
    (hdone : ∀ ts, ¬ first (frontToken ts) → r ts = p ts) :
    Pinpoints r ((A.many.seq B).map v) := by
  refine loop first hq hread hbegins hmore ((begun_many A).seq hp.inhabited) ?_ fun ts hts => ?_
  · rintro used ⟨⟨d, ds, e⟩, tail, hd, htail⟩
    exact ⟨(d :: ds, e), tail, (List.append_assoc ..).trans hd, htail⟩
  · refine ((hp.ends ts).ofFront fun us hus => hdone us ?_).mono ?_
    · rwa [frontToken_congr hus]
    · exact fun _ h => Begun.behind (A := A.many) [] h

end Pinpoints

end Reader

end Schemata
