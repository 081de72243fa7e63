/-
Reading by a production.

`Reads` ties a reader to a production.  The reader succeeds on the tokens of each tree and
gives the tree's value, whenever the token behind them is one the production can stop at;
it succeeds on nothing else; and where the trees of a production end is never in doubt, so
that no two of them are written with the same tokens.

There is one lemma for each way of putting productions together, and each carries all
three facts at once.  What it asks for in return is always about the next token alone:
that it tells the parts of a choice from one another, or a part from what follows it.
-/
import Schemata.Proofs.Fallible
import Schemata.Proofs.Grammar.Production
import Schemata.Proofs.Reader

namespace Schemata

variable {α β γ : Type}

/-- The reader reads the trees of the production, and knows where they end if a token that
`stops` holds of stands behind them. -/
structure Reads (p : Reader α) (A : Production α) (stops : Token → Prop) : Prop where
  /-- Every tree is read. -/
  complete : ∀ d rest, stops (frontToken rest) → p (A.tokens d ++ rest) = .ok (A.value d, rest)
  /-- Nothing but trees is read. -/
  sound : ∀ {ts rest a}, p ts = .ok (a, rest) → ∃ d, ts = A.tokens d ++ rest ∧ A.value d = a
  /-- The tokens tell which tree it is and where it ends. -/
  cancel : A.Unambiguous stops

/-- Any token may follow. -/
def Always (_ : Token) : Prop := True

namespace Reads

open Production

variable {p : Reader α} {A : Production α} {B : Production β} {stops stops' : Token → Prop}

theorem weaken (h : Reads p A stops) (hle : ∀ t, stops' t → stops t) : Reads p A stops' where
  complete d rest hs := h.complete d rest (hle _ hs)
  sound := h.sound
  cancel := h.cancel.mono hle

theorem anywhere (h : Reads p A Always) : Reads p A stops := h.weaken fun _ _ => trivial

/-! ### Tokens -/

/-- A token is read by its value. -/
theorem take (wanted : Expected) {value? : Token → Option α} :
    Reads (Reader.take wanted value?) (.token value?) Always where
  complete := by
    rintro ⟨t, ht⟩ rest -
    exact Reader.take_eq_ok.mpr ⟨t, rfl, (Option.some_get ht).symm⟩
  sound h := by
    obtain ⟨t, rfl, ht⟩ := Reader.take_eq_ok.mp h
    exact ⟨⟨t, Option.isSome_of_eq_some ht⟩, rfl, Option.get_of_eq_some _ ht⟩
  cancel := unambiguous_token

theorem expect {t : Token} : Reads (Reader.expect t) (.exactly t) Always := take _

/-! ### Sequences -/

/-- One part is read after another, if what may begin the second can stop the first. -/
theorem seqOf {f : α → Reader γ} {v : α × β → γ} (hA : Reads p A stops)
    (hB : ∀ a, Reads (f a) (B.map fun b => v (a, b)) stops')
    (hnext : ∀ d rest, stops' (frontToken rest) → stops (frontToken (B.tokens d ++ rest))) :
    Reads (p >>= f) ((A.seq B).map v) stops' where
  complete := by
    rintro ⟨d, e⟩ rest hs
    have hp := hA.complete d (B.tokens e ++ rest) (hnext e rest hs)
    show (p >>= f) (A.tokens d ++ B.tokens e ++ rest) = _
    rw [List.append_assoc, Reader.bind_of_ok hp]
    exact (hB (A.value d)).complete e rest hs
  sound h := by
    obtain ⟨a, mid, hp, hf⟩ := Reader.bind_eq_ok.mp h
    obtain ⟨d, rfl, rfl⟩ := hA.sound hp
    obtain ⟨e, rfl, he⟩ := (hB (A.value d)).sound hf
    exact ⟨(d, e), (List.append_assoc ..).symm, he⟩
  cancel d _ _ _ hs hs' h := hA.cancel.seq (hB (A.value d.1)).cancel hnext hs hs' h

/-- One part is read after another, if the first knows its end by itself. -/
theorem seq {f : α → Reader γ} {v : α × β → γ} (hA : Reads p A Always)
    (hB : ∀ a, Reads (f a) (B.map fun b => v (a, b)) stops) :
    Reads (p >>= f) ((A.seq B).map v) stops :=
  hA.seqOf hB fun _ _ _ => trivial

/-- One part is read before another that never is empty. -/
theorem seqBefore {f : α → Reader γ} {v : α × β → γ} (hA : Reads p A stops)
    (hnext : B.Begins stops) (hB : ∀ a, Reads (f a) (B.map fun b => v (a, b)) stops') :
    Reads (p >>= f) ((A.seq B).map v) stops' :=
  hA.seqOf hB fun d rest _ => hnext.front d rest

/-- The last part is read, and a value is made of all. -/
theorem last {v : α → β} (h : Reads p A stops) :
    Reads (p >>= fun a => pure (v a)) (A.map v) stops where
  complete d rest hs := Reader.bind_of_ok (h.complete d rest hs)
  sound hall := by
    obtain ⟨a, mid, hp, ha⟩ := Reader.bind_eq_ok.mp hall
    obtain ⟨rfl, rfl⟩ := Reader.pure_eq_ok.mp ha
    obtain ⟨d, hts, hd⟩ := h.sound hp
    exact ⟨d, hts, congrArg v hd⟩
  cancel := h.cancel

/-- The line of a part is that of its first token. -/
theorem lined {f : Nat → Reader γ} {v : Nat × β → γ} (hbegins : B.Begins Always)
    (hB : ∀ n, Reads (f n) (B.map fun b => v (n, b)) stops) :
    Reads (Reader.line >>= f) (B.lined.map v) stops where
  complete e rest hs := by
    show f (frontLine (B.tokens e ++ rest)) (B.tokens e ++ rest) = _
    rw [frontLine_eq_firstLine, hbegins.firstLine e rest]
    exact (hB _).complete e rest hs
  sound {ts rest a} h := by
    have h : f (frontLine ts) ts = .ok (a, rest) := h
    obtain ⟨e, hts, ha⟩ := (hB _).sound h
    refine ⟨e, hts, ?_⟩
    show v (firstLine (B.tokens e), B.value e) = a
    rw [← hbegins.firstLine e rest, ← frontLine_eq_firstLine,
      ← show ts = B.tokens e ++ rest from hts]
    exact ha
  cancel := (hB 0).cancel

/-! ### Choices -/

/-- The reader takes the trees of the production for what begins like them. -/
structure Branch (p : Reader α) (A : Production α) (stops first : Token → Prop) : Prop where
  begins : A.Begins first
  reads : ∃ q, Reads q A stops ∧ ∀ ts, first (frontToken ts) → p ts = q ts

/-- One of several parts is read, if the next token tells which. -/
theorem choice {ι : Type} {A : ι → Production α} (kind : Token → Option ι)
    (hbranch : ∀ i, Branch p (A i) stops fun t => kind t = some i)
    (hnone : ∀ ts a rest, kind (frontToken ts) = none → p ts ≠ .ok (a, rest)) :
    Reads p (.choice A) stops where
  complete := by
    rintro ⟨i, d⟩ rest hs
    obtain ⟨q, hq, hp⟩ := (hbranch i).reads
    exact (hp _ ((hbranch i).begins.front d rest)).trans (hq.complete d rest hs)
  sound {ts rest a} h := by
    cases hkind : kind (frontToken ts) with
    | none => exact absurd h (hnone ts a rest hkind)
    | some i =>
        obtain ⟨q, hq, hp⟩ := (hbranch i).reads
        obtain ⟨d, hts, hd⟩ := hq.sound ((hp ts hkind).symm.trans h)
        exact ⟨⟨i, d⟩, hts, hd⟩
  cancel := by
    refine unambiguous_choice kind (fun i => (hbranch i).begins) fun i => ?_
    obtain ⟨q, hq, -⟩ := (hbranch i).reads
    exact hq.cancel

/-- A part that may be missing is read, if its first token can not stand behind it. -/
theorem opt {r : Reader γ} {v : Option α → γ} {first : Token → Prop}
    (hbranch : Branch r (A.map fun a => v (some a)) stops first)
    (hmissing : ∀ ts, ¬ first (frontToken ts) → r ts = .ok (v none, ts)) :
    Reads r (A.opt.map v) fun t => stops t ∧ ¬ first t := by
  obtain ⟨hbegins, q, hq, hthere⟩ := hbranch
  refine ⟨?_, ?_, hq.cancel.opt hbegins⟩
  · intro d rest hs
    cases d with
    | none => exact hmissing rest hs.2
    | some d => exact (hthere _ (hbegins.front d rest)).trans (hq.complete d rest hs.1)
  · intro ts rest a h
    by_cases hfirst : first (frontToken ts)
    · obtain ⟨d, hts, hd⟩ := hq.sound ((hthere ts hfirst).symm.trans h)
      exact ⟨some d, hts, hd⟩
    · cases (hmissing ts hfirst).symm.trans h
      exact ⟨none, rfl, rfl⟩

/-- A token that may be missing is read if it has a value. -/
theorem optToken {r : Reader γ} {value? : Token → Option α} {v : Option α → γ}
    (heof : value? .eof = none) (hnil : r [] = .ok (v none, []))
    (hcons : ∀ t ts, r (t :: ts) = match value? t.token with
      | some a => .ok (v (some a), ts)
      | none => .ok (v none, t :: ts)) :
    Reads r ((token value?).opt.map v) fun t => value? t = none := by
  have hbranch : Branch r ((token value?).map fun a => v (some a)) Always
      fun t => (value? t).isSome := by
    refine ⟨begins_token fun _ => id, _, (take .declaration).last, ?_⟩
    intro ts hts
    cases ts with
    | nil => simp [frontToken, heof] at hts
    | cons t ts =>
        obtain ⟨a, ha⟩ := Option.isSome_iff_exists.mp hts
        have ha : value? t.token = some a := ha
        rw [Reader.bind_of_ok (Reader.take_eq_ok.mpr ⟨t, rfl, ha⟩), hcons, ha]
        rfl
  have hmissing : ∀ ts, ¬ (value? (frontToken ts)).isSome → r ts = .ok (v none, ts) := by
    intro ts hts
    cases ts with
    | nil => exact hnil
    | cons t ts =>
        have hnone : value? t.token = none := by simpa [frontToken] using hts
        rw [hcons, hnone]
  exact (opt hbranch hmissing).weaken fun t ht => ⟨trivial, by simp [ht]⟩

/-! ### Repetition

A reader that repeats takes a part and goes on for as long as a part begins.  What it does
at the end differs, so the two lemmas about the loop leave that open.
-/

section

variable {q : Reader α} {r : Reader γ} {join : α → γ → γ} {first : Token → Prop}

/-- The parts are read, and what is read behind them is joined to their values. -/
theorem loop_complete (hq : Reads q A stops) (hbegins : A.Begins first)
    (hstops : ∀ t, first t → stops t)
    (hmore : ∀ ts, first (frontToken ts) → r ts = (do return join (← q) (← r) : Reader γ) ts)
    (ds : List A.Tree) {mid rest : List Located} {c : γ} (hs : stops (frontToken mid))
    (hmid : r mid = .ok (c, rest)) :
    r (A.many.tokens ds ++ mid) = .ok ((A.many.value ds).foldr join c, rest) := by
  induction ds with
  | nil => exact hmid
  | cons d ds ih =>
      have hd := hq.complete d _ (stops_many hbegins hstops ds hs)
      show r (A.tokens d ++ A.many.tokens ds ++ mid) = _
      rw [List.append_assoc, hmore _ (hbegins.front d _), Reader.bind_of_ok hd,
        Reader.bind_of_ok ih]
      rfl

/-- What is read is parts, and behind them what is read where none begins. -/
theorem loop_sound (hq : Reads q A stops) (hbegins : A.Begins first)
    (hmore : ∀ ts, first (frontToken ts) → r ts = (do return join (← q) (← r) : Reader γ) ts)
    {ts rest : List Located} {c : γ} (h : r ts = .ok (c, rest)) :
    ∃ ds mid c', ts = A.many.tokens ds ++ mid ∧ ¬ first (frontToken mid) ∧
      r mid = .ok (c', rest) ∧ (A.many.value ds).foldr join c' = c := by
  induction hlength : ts.length using Nat.strongRecOn generalizing ts c with
  | ind n ih =>
      by_cases hfirst : first (frontToken ts)
      · rw [hmore ts hfirst] at h
        obtain ⟨a, more, ha, h⟩ := Reader.bind_eq_ok.mp h
        obtain ⟨later, rest', hlater, h⟩ := Reader.bind_eq_ok.mp h
        obtain ⟨rfl, rfl⟩ := Reader.pure_eq_ok.mp h
        obtain ⟨d, rfl, rfl⟩ := hq.sound ha
        have hlt : more.length < n := by
          have hpos := hbegins.length_pos d
          rw [← hlength, List.length_append]
          omega
        obtain ⟨ds, mid, c', rfl, hmid, hc, rfl⟩ := ih more.length hlt hlater rfl
        exact ⟨d :: ds, mid, c', (List.append_assoc ..).symm, hmid, hc, rfl⟩
      · exact ⟨[], ts, c, rfl, hfirst, h, rfl⟩

/-- A value that grows by joining is a fold. -/
theorem foldr_join {v : List α → γ} (hjoin : ∀ a as, v (a :: as) = join a (v as))
    (as : List α) : as.foldr join (v []) = v as := by
  induction as with
  | nil => rfl
  | cons a as ih => rw [List.foldr_cons, ih, hjoin]

end

/-- A part that repeats is read again for as long as its first token is there. -/
theorem many {q : Reader α} {r : Reader γ} (v : List α → γ) (join : α → γ → γ)
    (hjoin : ∀ a as, v (a :: as) = join a (v as)) (hq : Reads q A stops) (first : Token → Prop)
    (hbegins : A.Begins first) (hstops : ∀ t, first t → stops t)
    (hmore : ∀ ts, first (frontToken ts) → r ts = (do return join (← q) (← r) : Reader γ) ts)
    (hdone : ∀ ts, ¬ first (frontToken ts) → r ts = .ok (v [], ts)) :
    Reads r (A.many.map v) fun t => stops t ∧ ¬ first t where
  complete ds rest hs := by
    rw [loop_complete hq hbegins hstops hmore ds hs.1 (hdone rest hs.2), foldr_join hjoin]
  sound h := by
    obtain ⟨ds, mid, c', rfl, hmid, hc, rfl⟩ := loop_sound hq hbegins hmore h
    cases (hdone mid hmid).symm.trans hc
    exact ⟨ds, rfl, (foldr_join hjoin _).symm⟩
  cancel := hq.cancel.many hbegins hstops

/-- Items are read until a token that ends them. -/
theorem manyUntil {ends : Token → Bool} {item : Reader (List α)} {progress : item.Takes 1}
    {A : Production (List α)} (hitem : Reads item A Always)
    (hbegins : A.Begins fun t => ends t = false) :
    Reads (Reader.manyUntil ends item progress) (A.many.map List.flatten)
      fun t => ends t = true := by
  exact (many List.flatten (· ++ ·) (fun _ _ => rfl) hitem (fun t => ends t = false) hbegins
    (fun _ _ => trivial) (fun _ => Reader.manyUntil_of_more)
    fun ts hts => Reader.manyUntil_of_ends (by simpa using hts)).weaken
    fun t ht => ⟨trivial, by simp [ht]⟩

/-- A part that repeats is read up to what stands behind all of them. -/
theorem manyThen {q : Reader α} {p : Reader γ} {r : Reader γ} {v : List α × β → γ}
    (join : α → γ → γ) (hjoin : ∀ a as b, v (a :: as, b) = join a (v (as, b)))
    (first : Token → Prop) (hbegins : A.Begins first) (hq : Reads q A stops)
    (hends : B.Begins fun t => stops t ∧ ¬ first t)
    (hp : Reads p (B.map fun b => v ([], b)) stops') (hstops : ∀ t, first t → stops t)
    (hmore : ∀ ts, first (frontToken ts) → r ts = (do return join (← q) (← r) : Reader γ) ts)
    (hdone : ∀ ts, ¬ first (frontToken ts) → r ts = p ts) :
    Reads r ((A.many.seq B).map v) stops' where
  complete := by
    rintro ⟨ds, e⟩ rest hs
    have hfront := hends.front e rest
    have he := (hdone _ hfront.2).trans (hp.complete e rest hs)
    have hjoined := foldr_join (v := fun as => v (as, B.value e)) (fun a as => hjoin a as _)
    show r (A.many.tokens ds ++ B.tokens e ++ rest) = _
    rw [List.append_assoc, loop_complete hq hbegins hstops hmore ds hfront.1 he, hjoined]
  sound h := by
    obtain ⟨ds, mid, c', rfl, hmid, hc, rfl⟩ := loop_sound hq hbegins hmore h
    obtain ⟨e, rfl, rfl⟩ := hp.sound ((hdone mid hmid).symm.trans hc)
    exact ⟨(ds, e), (List.append_assoc ..).symm,
      (foldr_join (v := fun as => v (as, B.value e)) (fun a as => hjoin a as _) _).symm⟩
  cancel := (hq.cancel.many hbegins hstops).seq hp.cancel fun e rest _ => hends.front e rest

end Reads

end Schemata
