/-
Reading names, numbers and options by the grammar.

The parts a reader looks ahead for are few: a dot that goes on with a name, a minus sign, a
parenthesis or bracket that opens something.  Each is a token that nothing behind the part
begins with.
-/
import Schemata.Proofs.Grammar.Reads
import Schemata.Proofs.Grammar.Schema

namespace Schemata

open Production

/-! ### Kinds of tokens

What a reader asks of a token is whether it is of a kind that the grammar has. -/

namespace Grammar

theorem ident?_eq : Reader.ident? = ident? := by
  funext t
  cases t <;> rfl

theorem str?_eq : Reader.str? = str? := by
  funext t
  cases t <;> rfl

theorem segment?_eq : Reader.segment? = segment? := by
  funext t
  cases t <;> rfl

theorem label?_eq : Reader.label? = label? := by
  funext t
  cases t with
  | keyword k => cases k <;> rfl
  | _ => rfl

theorem scalar?_eq : Reader.scalar? = scalar? := by
  funext t
  cases t with
  | keyword k => cases k <;> rfl
  | _ => rfl

theorem signedValue?_eq : Reader.signedValue? = signedValue? := by
  funext t
  cases t <;> rfl

theorem literal?_eq : Reader.literal? = literal? := by
  funext t
  cases t <;> rfl

/-- A number is that of an integer exactly if the integer has its value under the sign. -/
theorem int32?_eq_some {negative : Bool} {n : Int64} {k : Int32} :
    int32? negative (.int n) = some k ↔ k.toInt = if negative then -n.toInt else n.toInt := by
  rw [int32?]
  generalize (if negative then -n.toInt else n.toInt) = value
  constructor
  · intro h
    split at h
    · rename_i hrange
      rw [← Option.some.inj h]
      exact Int32.toInt_ofInt_of_le hrange.1 (Int.lt_add_one_of_le hrange.2)
    · cases h
  · intro h
    rw [← h, if_pos ⟨k.le_toInt, Int.le_sub_one_of_lt k.toInt_lt⟩, Int32.ofInt_toInt]

/-- Sixty-four bits negate the least integer wrongly, but that one is no number either way. -/
theorem number?_eq (negative : Bool) (n : Int64) :
    Reader.number? (if negative then -n else n) = int32? negative (.int n) := by
  refine Option.ext fun k => ?_
  rw [Reader.number?_eq_some, int32?_eq_some]
  cases negative with
  | false => rfl
  | true =>
      have hlow := n.le_toInt
      have hhigh := n.toInt_lt
      have hk := k.le_toInt
      have hk' := k.toInt_lt
      have hwrap : n.toInt = -2 ^ 63 ∨ (-n.toInt).bmod (2 ^ 64) = -n.toInt := by
        refine (Classical.em _).imp_right fun hne => Int.bmod_eq_of_le (by omega) (by omega)
      show k.toInt = (-n).toInt ↔ k.toInt = -n.toInt
      rw [Int64.toInt_neg]
      rcases hwrap with hleast | hexact
      · have hwrong : (-n.toInt).bmod (2 ^ 64) = -2 ^ 63 := by rw [hleast]; rfl
        rw [hwrong]
        omega
      · rw [hexact]

end Grammar

/-! ### Looking ahead -/

namespace Reader

variable {α : Type} {ts : List Located} {t : Token}

theorem peek_bind (f : Token → Reader α) (ts : List Located) :
    (peek >>= f) ts = f (frontToken ts) ts := rfl

/-- Expecting the token at the front steps over it. -/
theorem expect_of_front {u : Located} (f : Unit → Reader α) (h : u.token = t) :
    (expect t >>= f) (u :: ts) = f () ts :=
  bind_of_ok (take_eq_ok.mpr ⟨u, rfl, if_pos h⟩)

/-- Accepting the token at the front is expecting it. -/
theorem accept_of_front (f : Bool → Reader α) (hne : t ≠ .eof) (h : frontToken ts = t) :
    (accept t >>= f) ts = (expect t >>= fun _ => f true) ts := by
  cases ts with
  | nil => exact absurd h.symm hne
  | cons u us =>
      have haccept : accept t (u :: us) = .ok (true, us) := if_pos h
      rw [bind_of_ok haccept, expect_of_front _ h]

theorem accept_of_not_front (f : Bool → Reader α) (h : frontToken ts ≠ t) :
    (accept t >>= f) ts = f false ts := by
  cases ts with
  | nil => rfl
  | cons u us =>
      have haccept : accept t (u :: us) = .ok (false, u :: us) := if_neg h
      rw [bind_of_ok haccept]

end Reader

namespace Reads

/-! ### Names and numbers -/

theorem identifier : Reads Reader.identifier Grammar.identifier Always := by
  rw [Reader.identifier, Grammar.ident?_eq]
  exact take _

theorem string : Reads Reader.string Grammar.string Always := by
  rw [Reader.string, Grammar.str?_eq]
  exact take _

section

variable {α : Type} (wanted : Expected) {segment? : Token → Option α}

/-- A dot goes on with a segment and with what a dot may follow again. -/
theorem dotTail_cons {dot : Located} (hdot : dot.token = .punct .dot) (ts : List Located) :
    Reader.dotTail wanted segment? (dot :: ts) = (do
      let a ← Reader.take wanted segment?
      return a :: (← Reader.dotTail wanted segment?) : Reader (List α)) ts := by
  rw [Reader.dotTail.eq_def]
  dsimp only
  rw [if_pos hdot]
  cases ts with
  | nil => rfl
  | cons t ts =>
      dsimp only
      cases ht : segment? t.token with
      | none =>
          rw [Reader.bind_of_error (Reader.take_of_none ht)]
      | some a =>
          rw [Reader.bind_of_ok (Reader.take_eq_ok.mpr ⟨t, rfl, ht⟩)]
          show _ = (Reader.dotTail wanted segment? ts).bind _
          cases Reader.dotTail wanted segment? ts <;> rfl

theorem dotTail_of_dot {ts : List Located} (h : frontToken ts = .punct .dot) :
    Reader.dotTail wanted segment? ts = (do
      let a ← (do Reader.expect (.punct .dot); Reader.take wanted segment?)
      return a :: (← Reader.dotTail wanted segment?) : Reader (List α)) ts := by
  cases ts with
  | nil => cases h
  | cons dot ts => rw [dotTail_cons _ h, bind_assoc, Reader.expect_of_front _ h]

theorem dotTail_of_not_dot {ts : List Located} (h : frontToken ts ≠ .punct .dot) :
    Reader.dotTail wanted segment? ts = .ok ([], ts) := by
  cases ts with
  | nil => rfl
  | cons t ts =>
      rw [Reader.dotTail.eq_def]
      exact if_neg h

/-- A dot and a segment behind it. -/
theorem dotted_segment :
    Reads (do Reader.expect (.punct .dot); Reader.take wanted segment?)
      (((punct .dot).seq (token segment?)).map Prod.snd) Always := expect.seq fun _ => take _

/-- The rest of a dotted name ends where no dot follows. -/
theorem dotTail :
    Reads (Reader.dotTail wanted segment?) (Grammar.dotTail segment?)
      fun t => t ≠ .punct .dot :=
  (many id List.cons (fun _ _ => rfl) (dotted_segment wanted) (· = .punct .dot)
    (.map (.seq (begins_exactly rfl))) (fun _ _ => trivial) (fun _ => dotTail_of_dot wanted)
    fun _ => dotTail_of_not_dot wanted).weaken fun _ ht => ⟨trivial, ht⟩

theorem dotted :
    Reads (Reader.dotted wanted segment?) (Grammar.dotted segment?) fun t => t ≠ .punct .dot := by
  unfold Reader.dotted Grammar.dotted
  exact (take _).seq fun _ => (dotTail _).last

end

theorem dottedName :
    Reads Reader.dottedName Grammar.dottedName fun t => t ≠ .punct .dot := by
  rw [Reader.dottedName, Grammar.ident?_eq]
  exact dotted _

/-- An integer under its sign is a token that has a value. -/
theorem integer_eq_ok {negative : Bool} {ts rest : List Located} {n : Int32} :
    Reader.integer negative ts = .ok (n, rest) ↔
      Reader.take .integer (Grammar.int32? negative) ts = .ok (n, rest) := by
  cases ts with
  | nil => simp [Reader.integer, Reader.take]
  | cons t ts =>
      rw [Reader.integer, Reader.take]
      cases t.token with
      | int m =>
          dsimp only
          rw [Grammar.number?_eq]
          cases Grammar.int32? negative (.int m) with
          | some value => rfl
          | none =>
              dsimp only
              split <;> simp
      | _ => simp [Grammar.int32?]

theorem integer {negative : Bool} :
    Reads (Reader.integer negative) (token (Grammar.int32? negative)) Always where
  complete d rest hs := integer_eq_ok.mpr ((take _).complete d rest hs)
  sound h := (take _).sound (integer_eq_ok.mp h)
  cancel := (take .integer).cancel

/-- A minus sign tells a negative number from the others. -/
theorem signedInteger : Reads Reader.signedInteger Grammar.signedInteger Always := by
  refine choice (fun t => some (decide (t = .punct .minus))) ?_ (by simp)
  intro negative
  cases negative with
  | true =>
      refine ⟨?_, _, expect.seq fun _ => integer, ?_⟩
      · exact .map (.seq (begins_exactly rfl))
      · intro ts hts
        exact Reader.accept_of_front _ (by simp) (by simpa using hts)
  | false =>
      refine ⟨begins_token fun t ht => ?_, _, integer, ?_⟩
      · cases t <;> simp_all [Grammar.int32?]
      · intro ts hts
        exact Reader.accept_of_not_front _ (by simpa using hts)

/-! ### Options -/

/-- A parenthesis tells the name of a custom option. -/
theorem optionHead : Reads Reader.optionHead Grammar.optionHead Always := by
  rw [Reader.optionHead, Grammar.segment?_eq]
  refine choice (fun t => some (if t = .punct .openParen then .custom else .plain)) ?_ (by simp)
  intro start
  cases start with
  | plain =>
      refine ⟨begins_token fun t ht => ?_, _, take .optionName, ?_⟩
      · cases t <;> simp_all [Grammar.segment?]
      · intro ts hts
        exact Reader.accept_of_not_front _ (by simpa using hts)
  | custom =>
      refine ⟨.map (.seq (begins_exactly (by simp))), _, expect.seq fun _ =>
        (dotted .optionName).seqBefore (begins_exactly (by simp)) fun _ => expect, ?_⟩
      intro ts hts
      exact Reader.accept_of_front _ (by simp) (by simpa using hts)

theorem optionName :
    Reads Reader.optionName Grammar.optionName fun t => t ≠ .punct .dot := by
  rw [Reader.optionName, Grammar.optionName, Grammar.segment?_eq]
  exact optionHead.seq fun _ => (dotTail _).last

/-- What the first token of an option's value says about it. -/
def constantKind : Token → Grammar.ConstantKind
  | .punct .minus => .negative
  | .ident _ => .name
  | _ => .literal

theorem begins_dottedName {first : Token → Prop} (h : ∀ w, first (.ident w)) :
    Grammar.dottedName.Begins first := by
  unfold Grammar.dottedName Grammar.dotted
  refine .map (.seq (begins_token fun t ht => ?_))
  cases t with
  | ident w => exact h w
  | _ => cases ht

theorem constant_apply (ts : List Located) : Reader.constant ts =
    match constantKind (frontToken ts) with
    | .negative => (do
        Reader.expect (.punct .minus)
        Reader.take .signedNumber Grammar.signedValue? : Reader Unit) ts
    | .name => (do let _ ← Reader.dottedName : Reader Unit) ts
    | .literal => Reader.take .optionValue Grammar.literal? ts := by
  rw [← Grammar.signedValue?_eq, ← Grammar.literal?_eq]
  by_cases hminus : frontToken ts = .punct .minus
  · rw [Reader.constant, Reader.accept_of_front _ (by simp) hminus, hminus]
    rfl
  · rw [Reader.constant, Reader.accept_of_not_front _ hminus, if_neg (by simp),
      Reader.peek_bind]
    cases hfront : frontToken ts with
    | punct c => cases c <;> first | rfl | exact absurd hfront hminus
    | _ => rfl

theorem constant : Reads Reader.constant Grammar.constant fun t => t ≠ .punct .dot := by
  refine choice (fun t => some (constantKind t)) ?_ (by simp)
  intro kind
  have happly : ∀ ts, some (constantKind (frontToken ts)) = some kind →
      constantKind (frontToken ts) = kind := fun ts => Option.some.inj
  cases kind with
  | negative =>
      refine ⟨.map (.seq (begins_exactly rfl)), _,
        (expect.seq fun _ => take .signedNumber).anywhere, fun ts hts => ?_⟩
      rw [constant_apply, happly ts hts]
  | name =>
      refine ⟨.map (begins_dottedName fun _ => rfl), _, dottedName.last, fun ts hts => ?_⟩
      rw [constant_apply, happly ts hts]
  | literal =>
      refine ⟨begins_token fun t ht => ?_, _, (take .optionValue).anywhere, fun ts hts => ?_⟩
      · cases t <;> simp_all [Grammar.literal?, constantKind]
      · rw [constant_apply, happly ts hts]

theorem assignment : Reads Reader.assignment Grammar.assignment fun t => t ≠ .punct .dot := by
  unfold Reader.assignment Grammar.assignment
  exact optionName.seqBefore (.seq (begins_exactly (by simp))) fun _ =>
    expect.seq fun _ => constant

theorem optionStatement : Reads Reader.optionStatement Grammar.optionStatement Always := by
  unfold Reader.optionStatement Grammar.optionStatement
  exact expect.seq fun _ => assignment.seqBefore (begins_exactly (by simp)) fun _ => expect

/-! ### Options of fields -/

/-- What follows an assignment in brackets. -/
def closing : Reader Unit := do
  if ← Reader.take .optionSeparator Reader.goesOn? then Reader.assignments

theorem assignments_eq : Reader.assignments = (Reader.assignment >>= fun _ => closing) := by
  funext ts
  have hseparated : (Reader.assignment >>= fun _ => closing) =
      (Reader.separatedAssignment >>= fun b => if b then Reader.assignments else pure ()) := by
    rw [Reader.separatedAssignment, bind_assoc]
    rfl
  rw [hseparated, Reader.assignments.eq_def]
  cases h : Reader.separatedAssignment ts with
  | error r => rw [Reader.bind_of_error h]
  | ok v =>
      obtain ⟨b, rest⟩ := v
      rw [Reader.bind_of_ok h]
      cases b <;> rfl

theorem closing_of_comma {ts : List Located} (h : frontToken ts = .punct .comma) :
    closing ts = ((do Reader.expect (.punct .comma); Reader.assignment : Reader Unit) >>=
      fun _ => closing >>= pure) ts := by
  cases ts with
  | nil => cases h
  | cons comma ts =>
      have hcomma : comma.token = .punct .comma := h
      have htake : Reader.take .optionSeparator Reader.goesOn? (comma :: ts) = .ok (true, ts) :=
        Reader.take_eq_ok.mpr ⟨comma, rfl, by rw [hcomma]; rfl⟩
      have hclosing : closing (comma :: ts) = Reader.assignments ts := Reader.bind_of_ok htake
      rw [hclosing, bind_assoc, Reader.expect_of_front _ hcomma, assignments_eq, bind_pure]

/-- The end of the options of a field. -/
def closingBracket : Reader Unit :=
  Reader.take .optionSeparator fun t => if t = .punct .closeBracket then some () else none

theorem closing_of_not_comma {ts : List Located} (h : frontToken ts ≠ .punct .comma) :
    closing ts = closingBracket ts := by
  cases ts with
  | nil => rfl
  | cons t ts =>
      by_cases hbracket : t.token = .punct .closeBracket
      · have htake : Reader.take .optionSeparator Reader.goesOn? (t :: ts) = .ok (false, ts) :=
          Reader.take_eq_ok.mpr ⟨t, rfl, by rw [hbracket]; rfl⟩
        rw [closing, Reader.bind_of_ok htake, closingBracket,
          Reader.take_eq_ok.mpr ⟨t, rfl, if_pos hbracket⟩]
        rfl
      · have hnone : Reader.goesOn? t.token = none := by
          change t.token ≠ .punct .comma at h
          unfold Reader.goesOn?
          split <;> simp_all
        rw [closing, Reader.bind_of_error (Reader.take_of_none hnone), closingBracket,
          Reader.take_of_none (if_neg hbracket)]

/-- A comma and an assignment behind it. -/
theorem comma_assignment : Reads (do Reader.expect (.punct .comma); Reader.assignment)
    (((punct .comma).seq Grammar.assignment).map Prod.snd) fun t => t ≠ .punct .dot :=
  expect.seq fun _ => assignment

/-- A comma goes on with another assignment, a bracket closes. -/
theorem reads_closing :
    Reads closing ((Grammar.moreAssignments.seq (punct .closeBracket)).map fun _ => ()) Always := by
  have hclose : Reads closingBracket (punct .closeBracket) Always := take _
  exact manyThen (fun _ u => u) (fun _ _ _ => rfl) (· = .punct .comma)
    (.map (.seq (begins_exactly rfl))) comma_assignment (begins_exactly (by simp)) hclose
    (by rintro t rfl; simp) (fun _ => closing_of_comma) fun _ => closing_of_not_comma

/-- The assignments in brackets. -/
theorem assignments : Reads Reader.assignments Grammar.assignments Always := by
  rw [assignments_eq, Grammar.assignments]
  exact assignment.seqBefore (.many_seq (.map (.seq (begins_exactly (by simp))))
    (begins_exactly (by simp))) fun _ => reads_closing

/-- A bracket can not stand behind a field's options. -/
theorem fieldOptions :
    Reads Reader.fieldOptions Grammar.fieldOptions fun t => t ≠ .punct .openBracket := by
  have hbranch : Branch Reader.fieldOptions
      (((punct .openBracket).seq Grammar.assignments).map fun _ => ()) Always
      (· = .punct .openBracket) := by
    refine ⟨.map (.seq (begins_exactly rfl)), _, expect.seq fun _ => assignments, fun ts hts => ?_⟩
    exact Reader.accept_of_front _ (by simp) hts
  have hmissing : ∀ ts, ¬ frontToken ts = .punct .openBracket →
      Reader.fieldOptions ts = .ok ((), ts) := fun ts hts => Reader.accept_of_not_front _ hts
  exact (opt (v := fun _ => ()) hbranch hmissing).weaken fun t ht => ⟨trivial, ht⟩

end Reads

end Schemata
