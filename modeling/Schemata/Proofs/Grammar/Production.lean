/-
Productions of a grammar.

A production says what its derivation trees are, which tokens a tree is made of and which
value it stands for.  Productions are put together the way a grammar in extended form is:
a token, one thing after another, one of several, a part that may be missing, a part that
repeats.  Nothing here reads anything: a tree is there or it is not, and its tokens are
what it is written with.
-/
import Schemata.Schema.Reader

namespace Schemata

/-- The derivation trees of a production, with the tokens of each and its value. -/
structure Production (α : Type) where
  Tree : Type
  tokens : Tree → List Located
  value : Tree → α

namespace Production

variable {α β γ : Type}

/-- The line of the first of the tokens, and line one if there are none. -/
def firstLine (ts : List Located) : Nat := (ts.head?.map (·.place.line)).getD 1

/-- It is the line a reader takes down. -/
theorem frontLine_eq_firstLine (ts : List Located) : frontLine ts = firstLine ts := by
  cases ts <;> rfl

/-- One token that has a value. -/
@[reducible] def token (value? : Token → Option α) : Production α where
  Tree := { t : Located // (value? t.token).isSome }
  tokens t := [t.val]
  value t := (value? t.val.token).get t.property

/-- The token `t`. -/
@[reducible] def exactly (t : Token) : Production Unit :=
  token fun u => if u = t then some () else none

/-- A punctuation character. -/
@[reducible] def punct (p : Punct) : Production Unit := exactly (.punct p)

/-- A reserved word. -/
@[reducible] def keyword (k : Keyword) : Production Unit := exactly (.keyword k)

/-- One thing after another. -/
@[reducible] def seq (A : Production α) (B : Production β) : Production (α × β) where
  Tree := A.Tree × B.Tree
  tokens d := A.tokens d.1 ++ B.tokens d.2
  value d := (A.value d.1, B.value d.2)

/-- The same trees, each standing for another value. -/
@[reducible] def map (A : Production α) (f : α → β) : Production β where
  Tree := A.Tree
  tokens := A.tokens
  value d := f (A.value d)

/-- One of several. -/
@[reducible] def choice {ι : Type} (A : ι → Production α) : Production α where
  Tree := (i : ι) × (A i).Tree
  tokens d := (A d.1).tokens d.2
  value d := (A d.1).value d.2

/-- A part that may be missing. -/
@[reducible] def opt (A : Production α) : Production (Option α) where
  Tree := Option A.Tree
  tokens d := d.elim [] A.tokens
  value d := d.map A.value

/-- A part that repeats, any number of times. -/
@[reducible] def many (A : Production α) : Production (List α) where
  Tree := List A.Tree
  tokens ds := ds.flatMap A.tokens
  value ds := ds.map A.value

/-- With the line of its first token. -/
@[reducible] def lined (A : Production α) : Production (Nat × α) where
  Tree := A.Tree
  tokens := A.tokens
  value d := (firstLine (A.tokens d), A.value d)

/-! ### First tokens -/

/-- Every tree has a first token, and `first` holds of it. -/
def Begins (A : Production α) (first : Token → Prop) : Prop :=
  ∀ d, ∃ t ts, A.tokens d = t :: ts ∧ first t.token

section

variable {A : Production α} {B : Production β} {first : Token → Prop}

theorem Begins.front (h : A.Begins first) (d : A.Tree) (rest : List Located) :
    first (frontToken (A.tokens d ++ rest)) := by
  obtain ⟨t, ts, htokens, ht⟩ := h d
  rw [htokens]
  exact ht

theorem Begins.front_append (h : A.Begins first) (d : A.Tree) (more rest : List Located) :
    first (frontToken (A.tokens d ++ more ++ rest)) := by
  rw [List.append_assoc]
  exact h.front d _

theorem Begins.firstLine (h : A.Begins first) (d : A.Tree) (rest : List Located) :
    firstLine (A.tokens d ++ rest) = firstLine (A.tokens d) := by
  obtain ⟨t, ts, htokens, -⟩ := h d
  rw [htokens]
  rfl

theorem Begins.length_pos (h : A.Begins first) (d : A.Tree) : 0 < (A.tokens d).length := by
  obtain ⟨t, ts, htokens, -⟩ := h d
  rw [htokens]
  exact Nat.succ_pos _

theorem begins_token {value? : Token → Option α} (h : ∀ t, (value? t).isSome → first t) :
    (token value?).Begins first :=
  fun d => ⟨d.val, [], rfl, h _ d.property⟩

theorem begins_exactly {t : Token} (h : first t) : (exactly t).Begins first := by
  refine begins_token fun u hu => ?_
  by_cases he : u = t
  · rwa [he]
  · simp [he] at hu

theorem Begins.seq (h : A.Begins first) : (A.seq B).Begins first := by
  intro d
  obtain ⟨t, ts, htokens, ht⟩ := h d.1
  exact ⟨t, ts ++ B.tokens d.2, congrArg (· ++ B.tokens d.2) htokens, ht⟩

theorem Begins.map {f : α → β} (h : A.Begins first) : (A.map f).Begins first := h

theorem Begins.lined (h : A.Begins first) : A.lined.Begins first := h

/-- Behind a part that may be missing the next part may come first. -/
theorem Begins.opt_seq (h : A.Begins first) (h' : B.Begins first) :
    (A.opt.seq B).Begins first := by
  rintro ⟨d, e⟩
  cases d with
  | none => exact h' e
  | some d => exact Begins.seq (B := B) h (d, e)

theorem Begins.many_seq (h : A.Begins first) (h' : B.Begins first) :
    (A.many.seq B).Begins first := by
  rintro ⟨ds, e⟩
  cases ds with
  | nil => exact h' e
  | cons d ds => exact Begins.seq (B := B) (Begins.seq (B := A.many) h) ((d, ds), e)

theorem begins_choice {ι : Type} {A : ι → Production α} (h : ∀ i, (A i).Begins first) :
    (choice A).Begins first :=
  fun d => h d.1 d.2

/-! ### Telling trees apart -/

/-- Where a token that `stops` holds of stands behind a tree, the tokens tell which tree it
is and where it ends. -/
def Unambiguous (A : Production α) (stops : Token → Prop) : Prop :=
  ∀ ⦃d d' : A.Tree⦄ ⦃rest rest' : List Located⦄, stops (frontToken rest) →
    stops (frontToken rest') → A.tokens d ++ rest = A.tokens d' ++ rest' → d = d' ∧ rest = rest'

variable {stops stops' : Token → Prop}

theorem Unambiguous.mono (h : A.Unambiguous stops) (hle : ∀ t, stops' t → stops t) :
    A.Unambiguous stops' :=
  fun _ _ _ _ hs hs' => h (hle _ hs) (hle _ hs')

theorem unambiguous_token {value? : Token → Option α} : (token value?).Unambiguous stops := by
  intro d d' rest rest' _ _ h
  obtain ⟨ht, hrest⟩ := List.cons.inj h
  exact ⟨Subtype.ext ht, hrest⟩

theorem unambiguous_exactly {t : Token} : (exactly t).Unambiguous stops := unambiguous_token

/-- Where the first part ends is told by what may stand behind it. -/
theorem Unambiguous.seq (hA : A.Unambiguous stops) (hB : B.Unambiguous stops')
    (hnext : ∀ d rest, stops' (frontToken rest) → stops (frontToken (B.tokens d ++ rest))) :
    (A.seq B).Unambiguous stops' := by
  rintro ⟨d, e⟩ ⟨d', e'⟩ rest rest' hs hs' h
  change A.tokens d ++ B.tokens e ++ rest = A.tokens d' ++ B.tokens e' ++ rest' at h
  rw [List.append_assoc, List.append_assoc] at h
  obtain ⟨rfl, hmore⟩ := hA (hnext e rest hs) (hnext e' rest' hs') h
  obtain ⟨rfl, rfl⟩ := hB hs hs' hmore
  exact ⟨rfl, rfl⟩

/-- The first token tells which of several parts it is. -/
theorem unambiguous_choice {ι : Type} {A : ι → Production α} (kind : Token → Option ι)
    (hbegins : ∀ i, (A i).Begins fun t => kind t = some i) (h : ∀ i, (A i).Unambiguous stops) :
    (choice A).Unambiguous stops := by
  rintro ⟨i, d⟩ ⟨i', d'⟩ rest rest' hs hs' heq
  change (A i).tokens d ++ rest = (A i').tokens d' ++ rest' at heq
  have hi : some i = some i' := by
    rw [← (hbegins i).front d rest, ← (hbegins i').front d' rest', heq]
  obtain rfl := Option.some.inj hi
  obtain ⟨rfl, rfl⟩ := h i hs hs' heq
  exact ⟨rfl, rfl⟩

/-- A part is missing if its first token is. -/
theorem Unambiguous.opt (h : A.Unambiguous stops) (hbegins : A.Begins first) :
    A.opt.Unambiguous fun t => stops t ∧ ¬ first t := by
  intro d d' rest rest' hs hs' heq
  cases d with
  | none =>
      cases d' with
      | none => exact ⟨rfl, heq⟩
      | some d' => exact absurd ((show rest = _ from heq) ▸ hbegins.front d' rest') hs.2
  | some d =>
      cases d' with
      | none => exact absurd ((show _ = rest' from heq) ▸ hbegins.front d rest) hs'.2
      | some d' =>
          obtain ⟨rfl, rfl⟩ := h hs.1 hs'.1 heq
          exact ⟨rfl, rfl⟩

/-- What may begin a part that repeats, or stand behind all of them, can stop it. -/
theorem stops_many (hbegins : A.Begins first) (hstops : ∀ t, first t → stops t)
    (ds : List A.Tree) {rest : List Located} (hs : stops (frontToken rest)) :
    stops (frontToken (A.many.tokens ds ++ rest)) := by
  cases ds with
  | nil => exact hs
  | cons d ds =>
      show stops (frontToken (A.tokens d ++ A.many.tokens ds ++ rest))
      rw [List.append_assoc]
      exact hstops _ (hbegins.front d _)

/-- A part repeats for as long as its first token is there. -/
theorem Unambiguous.many (h : A.Unambiguous stops) (hbegins : A.Begins first)
    (hstops : ∀ t, first t → stops t) :
    A.many.Unambiguous fun t => stops t ∧ ¬ first t := by
  intro ds ds' rest rest' hs hs' heq
  induction ds generalizing ds' with
  | nil =>
      cases ds' with
      | nil => exact ⟨rfl, heq⟩
      | cons d' ds' =>
          change rest = A.tokens d' ++ A.many.tokens ds' ++ rest' at heq
          rw [List.append_assoc] at heq
          exact absurd (heq ▸ hbegins.front d' _) hs.2
  | cons d ds ih =>
      change A.tokens d ++ A.many.tokens ds ++ rest = _ at heq
      rw [List.append_assoc] at heq
      cases ds' with
      | nil => exact absurd ((show _ = rest' from heq) ▸ hbegins.front d _) hs'.2
      | cons d' ds' =>
          change _ = A.tokens d' ++ A.many.tokens ds' ++ rest' at heq
          rw [List.append_assoc] at heq
          obtain ⟨rfl, hmore⟩ := h (stops_many hbegins hstops ds hs.1)
            (stops_many hbegins hstops ds' hs'.1) heq
          obtain ⟨rfl, rfl⟩ := ih hmore
          exact ⟨rfl, rfl⟩

/-! ### What values are made of -/

variable {P P' : α → Prop} {P₂ : β → Prop} {Q : Token → Prop}

/-- What is written with tokens that `Q` holds of has a value that `P` holds of. -/
def Yields (A : Production α) (Q : Token → Prop) (P : α → Prop) : Prop :=
  ∀ d, (∀ t ∈ A.tokens d, Q t.token) → P (A.value d)

theorem yields_token {value? : Token → Option α} (h : ∀ t a, Q t → value? t = some a → P a) :
    (token value?).Yields Q P :=
  fun d hd => h _ _ (hd d.val List.mem_cons_self) (Option.some_get d.property).symm

theorem yields_any : A.Yields Q fun _ => True := fun _ _ => trivial

theorem Yields.mono (h : A.Yields Q P) (hle : ∀ a, P a → P' a) : A.Yields Q P' :=
  fun d hd => hle _ (h d hd)

theorem Yields.seq (hA : A.Yields Q P) (hB : B.Yields Q P₂) :
    (A.seq B).Yields Q fun a => P a.1 ∧ P₂ a.2 := by
  intro d hd
  obtain ⟨hd₁, hd₂⟩ := List.forall_mem_append.mp hd
  exact ⟨hA d.1 hd₁, hB d.2 hd₂⟩

theorem Yields.map {f : α → β} (h : A.Yields Q fun a => P₂ (f a)) : (A.map f).Yields Q P₂ := h

theorem yields_choice {ι : Type} {A : ι → Production α} (h : ∀ i, (A i).Yields Q P) :
    (choice A).Yields Q P :=
  fun d hd => h d.1 d.2 hd

theorem Yields.many (h : A.Yields Q P) : A.many.Yields Q fun as => ∀ a ∈ as, P a := by
  intro ds hds a ha
  obtain ⟨d, hd, rfl⟩ := List.mem_map.mp ha
  exact h d fun t ht => hds t (List.mem_flatMap.mpr ⟨d, hd, ht⟩)

theorem Yields.lined (h : A.Yields Q P) : A.lined.Yields Q fun a => P a.2 := h

/-! ### Places of tokens -/

variable {R R' : α → α → Prop} {R₂ : β → β → Prop}

/-- The same tokens at places of their own make a tree too, and the values of the two are
related. -/
def Placeless (A : Production α) (R : α → α → Prop) : Prop :=
  ∀ d ts, ts.map (·.token) = (A.tokens d).map (·.token) →
    ∃ d', A.tokens d' = ts ∧ R (A.value d) (A.value d')

theorem placeless_token {value? : Token → Option α} : (token value?).Placeless Eq := by
  rintro ⟨t, ht⟩ ts hts
  obtain ⟨u, rfl, hu⟩ := List.map_eq_singleton_iff.mp hts
  have htoken : u.token = t.token := hu
  refine ⟨⟨u, htoken ▸ ht⟩, rfl, Option.some.inj ?_⟩
  rw [Option.some_get, Option.some_get, htoken]

theorem placeless_exactly {t : Token} : (exactly t).Placeless Eq := placeless_token

theorem Placeless.mono (h : A.Placeless R) (hle : ∀ a b, R a b → R' a b) : A.Placeless R' := by
  intro d ts hts
  obtain ⟨d', htokens, hvalue⟩ := h d ts hts
  exact ⟨d', htokens, hle _ _ hvalue⟩

theorem Placeless.seq (hA : A.Placeless R) (hB : B.Placeless R₂) :
    (A.seq B).Placeless fun a b => R a.1 b.1 ∧ R₂ a.2 b.2 := by
  intro d ts hts
  rw [List.map_append] at hts
  obtain ⟨ts₁, ts₂, rfl, hts₁, hts₂⟩ := List.map_eq_append_iff.mp hts
  obtain ⟨d₁, rfl, hvalue₁⟩ := hA d.1 ts₁ hts₁
  obtain ⟨d₂, rfl, hvalue₂⟩ := hB d.2 ts₂ hts₂
  exact ⟨(d₁, d₂), rfl, hvalue₁, hvalue₂⟩

theorem Placeless.map {f : α → β} (h : A.Placeless fun a b => R₂ (f a) (f b)) :
    (A.map f).Placeless R₂ := h

theorem placeless_choice {ι : Type} {A : ι → Production α} (h : ∀ i, (A i).Placeless R) :
    (choice A).Placeless R := by
  intro d ts hts
  obtain ⟨d', htokens, hvalue⟩ := h d.1 d.2 ts hts
  exact ⟨⟨d.1, d'⟩, htokens, hvalue⟩

theorem Placeless.opt {f : α → γ} (h : A.Placeless fun a b => f a = f b) :
    A.opt.Placeless fun a b => a.map f = b.map f := by
  intro d ts hts
  cases d with
  | none => exact ⟨none, (List.map_eq_nil_iff.mp hts).symm, rfl⟩
  | some d =>
      obtain ⟨d', htokens, hvalue⟩ := h d ts hts
      exact ⟨some d', htokens, congrArg some hvalue⟩

theorem Placeless.many {f : α → γ} (h : A.Placeless fun a b => f a = f b) :
    A.many.Placeless fun as bs => as.map f = bs.map f := by
  intro ds ts hts
  induction ds generalizing ts with
  | nil => exact ⟨[], (List.map_eq_nil_iff.mp hts).symm, rfl⟩
  | cons d ds ih =>
      have hcons : ts.map (·.token) = (A.tokens d ++ A.many.tokens ds).map (·.token) := hts
      rw [List.map_append] at hcons
      obtain ⟨ts₁, ts₂, rfl, hts₁, hts₂⟩ := List.map_eq_append_iff.mp hcons
      obtain ⟨d', rfl, hvalue⟩ := h d ts₁ hts₁
      obtain ⟨ds', rfl, hvalues⟩ := ih ts₂ hts₂
      refine ⟨d' :: ds', rfl, ?_⟩
      show f (A.value d) :: (A.many.value ds).map f = f (A.value d') :: (A.many.value ds').map f
      rw [hvalue, hvalues]

theorem Placeless.lined (h : A.Placeless R) : A.lined.Placeless fun a b => R a.2 b.2 := h

end

end Production

end Schemata
