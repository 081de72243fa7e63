/-
Reading a token list from its front.

A reader takes tokens from the front of a list and either hands back a value and the
tokens it left, or refuses.  A refusal keeps the tokens that were left when it arose:
its line and the token it complains of are read off their front, so a reader cannot
report one place and stop at another.

`Reader.Takes` is the law every reader of the grammar obeys: the tokens it consumed
and the ones it left make up the list, and the end of input is never among those
consumed.  The bound in it is what makes the loops of the grammar end.
-/
import Schemata.Token

namespace Schemata

/-- What the grammar allows at a place. -/
inductive Expected where
  | token (t : Token)
  | identifier
  | string
  | integer
  | declaration
  | closeMessage (name : String)
  | closeEnum (name : String)
  | fieldType
  | optionSeparator
  | optionName
  | signedNumber
  | optionValue
deriving DecidableEq, Repr

/-- The words for it in a syntax error. -/
def Expected.describe : Expected → String
  | token t => t.describe
  | identifier => "identifier"
  | string => "string literal"
  | integer => "integer"
  | declaration => "'message', 'enum' or 'import'"
  | closeMessage name => "'\x7d' to close message '" ++ name ++ "'"
  | closeEnum name => "'\x7d' to close enum '" ++ name ++ "'"
  | fieldType => "field type"
  | optionSeparator => "',' or ']' in field options"
  | optionName => "option name"
  | signedNumber => "number after '-'"
  | optionValue => "option value"

/-- Why a token list is refused. -/
inductive Fault where
  | expected (e : Expected)
  /-- A number, sign included, that does not fit its field or enum value. -/
  | outOfRange (value : Int64)
  /-- The largest integer a token holds, which stands for every larger one too. -/
  | literalOutOfRange
  /-- The list does not end with the end of input. -/
  | unterminated
deriving DecidableEq, Repr

/-- The text of a fault met at the token `got`. -/
def Fault.message (got : Token) : Fault → String
  | expected e => "expected " ++ e.describe ++ ", got " ++ got.describe
  | outOfRange value => "integer " ++ toString value ++ " out of range"
  | literalOutOfRange => "integer literal out of range"
  | unterminated => "token stream is not terminated by end of input"

/-- A fault and the tokens that were left when it arose. -/
structure Refusal where
  fault : Fault
  rest : List Located
deriving DecidableEq, Repr

/-- The token at the front of a list; past its end, the end of input. -/
def frontToken : List Located → Token
  | [] => .eof
  | t :: _ => t.token

/-- The line of the token at the front of a list. -/
def frontLine : List Located → Nat
  | [] => 1
  | t :: _ => t.place.line

namespace Refusal

/-- The line of the token refused. -/
def line (r : Refusal) : Nat := frontLine r.rest

/-- The text of the refusal. -/
def message (r : Refusal) : String := r.fault.message (frontToken r.rest)

end Refusal

/-- A reader of tokens. -/
abbrev Reader (α : Type) := StateT (List Located) (Except Refusal) α

namespace Reader

variable {α β : Type}

/-- Refuses where it stands. -/
def refuse (fault : Fault) : Reader α :=
  fun ts => .error ⟨fault, ts⟩

/-- The token at the front, left in place. -/
def peek : Reader Token :=
  fun ts => .ok (frontToken ts, ts)

/-- The line of the token at the front. -/
def line : Reader Nat :=
  fun ts => .ok (frontLine ts, ts)

/-- Consumes the front token if `value?` has a value for it. -/
def take (wanted : Expected) (value? : Token → Option α) : Reader α
  | [] => .error ⟨.expected wanted, []⟩
  | t :: ts =>
    match value? t.token with
    | some a => .ok (a, ts)
    | none => .error ⟨.expected wanted, t :: ts⟩

/-- Consumes exactly the token `t`. -/
def expect (t : Token) : Reader Unit :=
  take (.token t) fun u => if u = t then some () else none

/-- Consumes the token `t` if it stands at the front, and says whether it did. -/
def accept (t : Token) : Reader Bool
  | [] => .ok (false, [])
  | u :: us => if u.token = t then .ok (true, us) else .ok (false, u :: us)

/-- A dot and a segment, as often as a dot follows. -/
def dotTail (wanted : Expected) (segment? : Token → Option α) : Reader (List α)
  | [] => .ok ([], [])
  | dot :: ts =>
    if dot.token = .punct .dot then
      match ts with
      | [] => .error ⟨.expected wanted, []⟩
      | t :: ts =>
        match segment? t.token with
        | none => .error ⟨.expected wanted, t :: ts⟩
        | some a => (dotTail wanted segment? ts).map fun (as, rest) => (a :: as, rest)
    else .ok ([], dot :: ts)

/-- Segments with dots between them, at least one. -/
def dotted (wanted : Expected) (segment? : Token → Option α) : Reader (List α) := do
  let first ← take wanted segment?
  return first :: (← dotTail wanted segment?)

/-! ### What a reader consumes -/

/-- After at least `least` tokens of `ts`, none of them the end of input, `rest` is
left. -/
def Consumed (least : Nat) (ts rest : List Located) : Prop :=
  ∃ used, ts = used ++ rest ∧ least ≤ used.length ∧ ∀ t ∈ used, t.token ≠ .eof

theorem Consumed.refl (ts : List Located) : Consumed 0 ts ts :=
  ⟨[], rfl, Nat.le_refl _, by simp⟩

theorem Consumed.one {t : Located} (h : t.token ≠ .eof) (ts : List Located) :
    Consumed 1 (t :: ts) ts :=
  ⟨[t], rfl, Nat.le_refl _, by simpa using h⟩

theorem Consumed.trans {m n : Nat} {as bs cs : List Located} (h : Consumed m as bs)
    (h' : Consumed n bs cs) : Consumed (m + n) as cs := by
  obtain ⟨used, rfl, hm, hu⟩ := h
  obtain ⟨more, rfl, hn, hv⟩ := h'
  exact ⟨used ++ more, by simp, by simp; omega,
    fun t ht => (List.mem_append.mp ht).elim (hu t) (hv t)⟩

theorem Consumed.weaken {m n : Nat} {ts rest : List Located} (h : Consumed n ts rest)
    (hle : m ≤ n) : Consumed m ts rest := by
  obtain ⟨used, hts, hn, heof⟩ := h
  exact ⟨used, hts, Nat.le_trans hle hn, heof⟩

theorem Consumed.length_le {n : Nat} {ts rest : List Located} (h : Consumed n ts rest) :
    rest.length + n ≤ ts.length := by
  obtain ⟨used, rfl, hle, -⟩ := h
  simp
  omega

/-- The reader consumes at least `least` tokens when it succeeds, leaves the tokens
after those it consumed, and never consumes the end of input. -/
def Takes (least : Nat) (p : Reader α) : Prop :=
  ∀ ⦃ts : List Located⦄ ⦃a : α⦄ ⦃rest : List Located⦄, p ts = .ok (a, rest) →
    Consumed least ts rest

theorem Takes.shorter {least : Nat} {p : Reader α} (h : p.Takes least) {ts rest : List Located}
    {a : α} (hp : p ts = .ok (a, rest)) : rest.length + least ≤ ts.length :=
  (h hp).length_le

theorem Takes.weaken {m n : Nat} {p : Reader α} (h : p.Takes n) (hle : m ≤ n) : p.Takes m :=
  fun _ _ _ hp => (h hp).weaken hle

theorem pure_apply (a : α) (ts : List Located) : (pure a : Reader α) ts = .ok (a, ts) := rfl

theorem takes_pure (a : α) : Takes 0 (pure a : Reader α) := by
  intro ts b rest h
  cases h
  exact .refl ts

theorem takes_bind {m n : Nat} {p : Reader α} {f : α → Reader β} (hp : p.Takes m)
    (hf : ∀ a, (f a).Takes n) : Takes (m + n) (p >>= f) := by
  intro ts b rest h
  simp only [bind, StateT.bind, Except.bind] at h
  split at h
  · cases h
  · rename_i v hv
    exact (hp hv).trans (hf v.1 h)

/-- A first step that may take nothing leaves the bound of the rest. -/
theorem takes_bind_free {n : Nat} {p : Reader α} {f : α → Reader β} (hp : p.Takes 0)
    (hf : ∀ a, (f a).Takes n) : Takes n (p >>= f) :=
  (takes_bind hp hf).weaken (by simp)

theorem takes_refuse (n : Nat) (fault : Fault) : Takes n (refuse fault : Reader α) := by
  intro ts a rest h
  cases h

theorem takes_peek : Takes 0 peek := by
  intro ts a rest h
  cases h
  exact .refl ts

theorem takes_line : Takes 0 line := by
  intro ts a rest h
  cases h
  exact .refl ts

theorem takes_take {wanted : Expected} {value? : Token → Option α} (h : value? .eof = none) :
    Takes 1 (take wanted value?) := by
  intro ts a rest hp
  unfold take at hp
  split at hp
  · cases hp
  · rename_i t ts
    split at hp
    · rename_i hv
      cases hp
      refine .one (fun he => ?_) _
      simp [he, h] at hv
    · cases hp

theorem takes_expect {t : Token} (h : t ≠ .eof) : Takes 1 (expect t) :=
  takes_take (by simp [Ne.symm h])

theorem takes_expect_punct (p : Punct) : Takes 1 (expect (.punct p)) :=
  takes_expect (by simp)

theorem takes_expect_keyword (k : Keyword) : Takes 1 (expect (.keyword k)) :=
  takes_expect (by simp)

theorem takes_accept {t : Token} (h : t ≠ .eof) : Takes 0 (accept t) := by
  intro ts b rest hp
  unfold accept at hp
  split at hp
  · cases hp
    exact .refl _
  · split at hp
    · rename_i u us hu
      cases hp
      exact (Consumed.one (hu ▸ h) _).weaken (Nat.zero_le _)
    · cases hp
      exact .refl _

theorem takes_dotTail {wanted : Expected} {segment? : Token → Option α}
    (h : segment? .eof = none) : Takes 0 (dotTail wanted segment?) := by
  intro ts as rest hp
  fun_induction dotTail wanted segment? ts generalizing as with
  | case1 =>
    cases hp
    exact .refl _
  | case2 => cases hp
  | case3 => cases hp
  | case4 dot hdot t ts a ha ih =>
    cases hd : dotTail wanted segment? ts with
    | error e => simp [hd, Except.map] at hp
    | ok v =>
      simp only [hd, Except.map, Except.ok.injEq, Prod.mk.injEq] at hp
      obtain ⟨-, rfl⟩ := hp
      have ht : t.token ≠ .eof := fun he => by simp [he, h] at ha
      have hdot : dot.token ≠ .eof := by simp [hdot]
      exact ((Consumed.one hdot _).trans ((Consumed.one ht _).trans (ih hd))).weaken (by simp)
  | case5 dot ts hdot =>
    cases hp
    exact .refl _

theorem takes_dotted {wanted : Expected} {segment? : Token → Option α}
    (h : segment? .eof = none) : Takes 1 (dotted wanted segment?) :=
  takes_bind (takes_take h) fun _ => takes_bind (takes_dotTail h) fun _ => takes_pure _

/-! ### Repetition -/

/-- Reads items until the front token ends the list, which is left in place.  That
every item takes a token is what makes it stop. -/
def manyUntil (ends : Token → Bool) (item : Reader (List α)) (progress : item.Takes 1) :
    Reader (List α) :=
  fun ts =>
    if ends (frontToken ts) then .ok ([], ts)
    else match _h : item ts with
      | .error e => .error e
      | .ok (now, rest) =>
        (manyUntil ends item progress rest).map fun (later, rest) => (now ++ later, rest)
termination_by ts => ts.length
decreasing_by exact progress.shorter _h

theorem takes_manyUntil {ends : Token → Bool} {item : Reader (List α)}
    {progress : item.Takes 1} : Takes 0 (manyUntil ends item progress) := by
  intro ts as rest hp
  fun_induction manyUntil ends item progress ts generalizing as with
  | case1 =>
    cases hp
    exact .refl _
  | case2 => cases hp
  | case3 ts _ now mid hi ih =>
    cases hd : manyUntil ends item progress mid with
    | error e => simp [hd, Except.map] at hp
    | ok v =>
      simp only [hd, Except.map, Except.ok.injEq, Prod.mk.injEq] at hp
      obtain ⟨-, rfl⟩ := hp
      exact ((progress hi).trans (ih hd)).weaken (by simp)

end Reader

end Schemata
