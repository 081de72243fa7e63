/-
What a program comes to as a reader.

A program that only moves along a list can be read off as a reader: looking and asking for a
line leave the list as it is, going on drops its first token, and a call is the reader of what
is called.  Each production then comes to the reader of that production, and what is done on a
call comes to the reader the call stands for, so nothing is read by moves that is not read
otherwise.

Going on drops any token, and where a reader expects one it does not.  The two agree only where
a look has shown the token that is expected, and `advance_of_front` says so.
-/
import Schemata.Proofs.Cursor.Program
import Schemata.Proofs.Grammar.Files

namespace Schemata

open Reader (ident? str? number? segment? signedValue? literal? label? scalar?)

/-- Where two steps do the same, they do so with what follows. -/
theorem Reader.bind_congr_at {α β : Type} {p q : Reader α} {ts : List Located} (h : p ts = q ts)
    (f : α → Reader β) : (p >>= f) ts = (q >>= f) ts := by
  show (StateT.bind p f) ts = (StateT.bind q f) ts
  simp only [StateT.bind, h]

/-- The reader of what is called by name. -/
def Routine.reader {α : Type} : Routine α → Reader α
  | .names => Reader.dotTail .identifier ident?
  | .segments => Reader.dotTail .optionName segment?
  | .assignments => Reader.assignments
  | .values name => do
    let values ← Reader.manyUntil Reader.isCloseBrace (Reader.enumItem name)
      (Reader.takes_enumItem name)
    Reader.expect (.punct .closeBrace)
    return values
  | .members name => Reader.members name
  | .statements => Reader.manyUntil Reader.isEof Reader.statement Reader.takes_statement

namespace Program

variable {α β : Type} {ts : List Located}

/-- The reader a program comes to. -/
def reads : Program α → Reader α
  | .done a => pure a
  | .refused fault => Reader.refuse fault
  | .looking next => Reader.peek >>= fun t => (next t).reads
  | .lining next => Reader.line >>= fun n => (next n).reads
  | .advancing next => fun ts => next.reads ts.tail
  | .calling r next => r.reader >>= fun a => (next a).reads

/-! ### Single moves -/

@[simp] theorem reads_pure (a : α) : (pure a : Program α).reads = pure a := rfl

@[simp] theorem reads_bind (p : Program α) (f : α → Program β) :
    (p >>= f).reads = p.reads >>= fun a => (f a).reads := by
  show (p.andThen f).reads = _
  induction p with
  | done a => simp [andThen, reads]
  | refused fault => rfl
  | looking next ih => simp [andThen, reads, ih]
  | lining next ih => simp [andThen, reads, ih]
  | advancing next ih =>
      rw [andThen, reads, ih]
      rfl
  | calling r next ih => simp [andThen, reads, ih]

@[simp] theorem reads_refuse (fault : Fault) :
    (refuse fault : Program α).reads = Reader.refuse fault := rfl

@[simp] theorem reads_line : line.reads = Reader.line := by
  simp [line, reads]

@[simp] theorem reads_call (r : Routine α) : (call r).reads = r.reader := by
  simp [call, reads]

theorem peek_bind (f : Token → Program α) (ts : List Located) :
    (peek >>= f).reads ts = (f (frontToken ts)).reads ts := rfl

theorem line_bind (f : Nat → Program α) (ts : List Located) :
    (line >>= f).reads ts = (f (frontLine ts)).reads ts := rfl

theorem advance_bind (p : Program α) (ts : List Located) :
    (advance >>= fun _ => p).reads ts = p.reads ts.tail := rfl

/-- To go on where `t` stands is to expect it. -/
theorem advance_of_front {t : Token} (hne : t ≠ .eof) (h : frontToken ts = t) (p : Program α) :
    (advance >>= fun _ => p).reads ts = (Reader.expect t >>= fun _ => p.reads) ts := by
  cases ts with
  | nil => exact absurd h.symm hne
  | cons u us => rw [Reader.expect_of_front _ h, advance_bind, List.tail_cons]

theorem reads_take (wanted : Expected) {value? : Token → Option α} (h : value? .eof = none) :
    (take wanted value?).reads = Reader.take wanted value? := by
  funext ts
  rw [take, peek_bind]
  cases ts with
  | nil =>
      rw [frontToken, h]
      rfl
  | cons t ts =>
      rw [frontToken, Reader.take]
      cases value? t.token <;> rfl

@[simp] theorem reads_expect_punct (p : Punct) :
    (expect (.punct p)).reads = Reader.expect (.punct p) := reads_take _ (by simp)

@[simp] theorem reads_expect_keyword (k : Keyword) :
    (expect (.keyword k)).reads = Reader.expect (.keyword k) := reads_take _ (by simp)

@[simp] theorem reads_accept (p : Punct) :
    (accept (.punct p)).reads = Reader.accept (.punct p) := by
  funext ts
  rw [accept, peek_bind]
  cases ts with
  | nil => rfl
  | cons t ts =>
      rw [frontToken, Reader.accept]
      split <;> rfl

/-! ### Leaves -/

@[simp] theorem reads_identifier : identifier.reads = Reader.identifier := reads_take _ rfl

@[simp] theorem reads_string : string.reads = Reader.string := reads_take _ rfl

theorem reads_dotThen (wanted : Expected) {value? : Token → Option α} (h : value? .eof = none)
    {more : Program (List α)} (hmore : more.reads = Reader.dotTail wanted value?) :
    (dotThen (take wanted value?) more).reads = Reader.dotTail wanted value? := by
  funext ts
  by_cases hdot : frontToken ts = .punct .dot
  · rw [Reads.dotTail_of_dot wanted hdot, dotThen, peek_bind, if_pos hdot,
      advance_of_front (by simp) hdot]
    simp [reads_take wanted h, hmore]
  · rw [Reads.dotTail_of_not_dot wanted hdot, dotThen, peek_bind, if_neg hdot]
    rfl

@[simp] theorem reads_dottedName : dottedName.reads = Reader.dottedName := by
  simp [dottedName, Reader.dottedName, Reader.dotted, Routine.reader, Reader.identifier]

@[simp] theorem reads_integer (negative : Bool) :
    (integer negative).reads = Reader.integer negative := by
  funext ts
  rw [integer, peek_bind]
  cases ts with
  | nil => rfl
  | cons t ts =>
      rw [frontToken, Reader.integer]
      cases t.token with
      | int n =>
          dsimp only
          cases number? (if negative then -n else n) with
          | some value => rfl
          | none =>
              dsimp only
              split <;> rfl
      | _ => rfl

@[simp] theorem reads_signedInteger : signedInteger.reads = Reader.signedInteger := by
  simp [signedInteger, Reader.signedInteger]

/-! ### Options -/

@[simp] theorem reads_segment : segment.reads = Reader.take .optionName segment? :=
  reads_take _ rfl

@[simp] theorem reads_optionHead : optionHead.reads = Reader.optionHead := by
  rw [optionHead, Reader.optionHead, reads_bind, reads_accept]
  congr 1
  funext opened
  cases opened with
  | true => simp [Reader.dotted, Routine.reader]
  | false => exact reads_segment

@[simp] theorem reads_optionName : optionName.reads = Reader.optionName := by
  simp [optionName, Reader.optionName, Routine.reader]

@[simp] theorem reads_constant : constant.reads = Reader.constant := by
  rw [constant, Reader.constant, reads_bind, reads_accept]
  congr 1
  funext negative
  cases negative with
  | true => exact reads_take _ rfl
  | false =>
      funext ts
      simp only [Bool.false_eq_true, ↓reduceIte, peek_bind, Reader.peek_bind]
      cases frontToken ts with
      | ident w => simp
      | _ => exact congrFun (reads_take .optionValue rfl) ts

@[simp] theorem reads_assignment : assignment.reads = Reader.assignment := by
  simp [assignment, Reader.assignment]

@[simp] theorem reads_optionStatement : optionStatement.reads = Reader.optionStatement := by
  simp [optionStatement, Reader.optionStatement]

@[simp] theorem reads_fieldOptions : fieldOptions.reads = Reader.fieldOptions := by
  rw [fieldOptions, Reader.fieldOptions, reads_bind, reads_accept]
  congr 1
  funext opened
  cases opened with
  | true => exact reads_call .assignments
  | false => rfl

/-! ### Fields and enums -/

@[simp] theorem reads_optionalLabel : optionalLabel.reads = Reader.optionalLabel := by
  funext ts
  rw [optionalLabel, peek_bind]
  cases ts with
  | nil => rfl
  | cons t ts =>
      rw [frontToken, Reader.optionalLabel]
      cases label? t.token <;> rfl

@[simp] theorem reads_typeRef : typeRef.reads = Reader.typeRef := by
  funext ts
  have hscalar : (take .fieldType scalar?).reads = Reader.take .fieldType scalar? :=
    reads_take _ rfl
  rw [typeRef, Reader.typeRef, peek_bind, Reader.peek_bind]
  cases frontToken ts <;> simp [hscalar]

@[simp] theorem reads_field : field.reads = Reader.field := by
  simp [field, Reader.field]

@[simp] theorem reads_enumValue : enumValue.reads = Reader.enumValue := by
  simp [enumValue, Reader.enumValue]

@[simp] theorem reads_enumItem (name : String) :
    (enumItem name).reads = Reader.enumItem name := by
  funext ts
  rw [enumItem, Reader.enumItem, peek_bind, Reader.peek_bind]
  cases h : frontToken ts with
  | keyword k => cases k <;> simp
  | punct p =>
      cases p with
      | semicolon => exact advance_of_front (by simp) h _
      | _ => simp
  | _ => simp

@[simp] theorem reads_enum : enum.reads = Reader.enum := by
  simp [enum, Reader.enum, Routine.reader]

/-! ### Messages and statements -/

@[simp] theorem reads_message : message.reads = Reader.message := by
  simp [message, Reader.message, Reader.messageHead, Routine.reader]

@[simp] theorem reads_plainMember : plainMember.reads = Reader.plainMember := by
  funext ts
  rw [plainMember, Reader.plainMember, peek_bind, Reader.peek_bind]
  cases h : frontToken ts with
  | keyword k => cases k <;> simp
  | punct p =>
      cases p with
      | semicolon => exact advance_of_front (by simp) h _
      | _ => simp
  | _ => simp

@[simp] theorem reads_importKind : importKind.reads = Reader.importKind := by
  funext ts
  rw [importKind, peek_bind]
  cases ts with
  | nil => rfl
  | cons t ts =>
      rw [frontToken, Reader.importKind]
      split <;> simp_all [advance_bind, Reader.pure_apply]

theorem reads_importStatement (h : frontToken ts = .keyword .importing) :
    (importStatement (frontLine ts)).reads ts = Reader.importStatement ts := by
  rw [importStatement, advance_of_front (by simp) h]
  simp only [reads_bind, reads_importKind, reads_string, reads_expect_punct, reads_pure]
  rfl

theorem reads_packageStatement (h : frontToken ts = .keyword .package) :
    (packageStatement (frontLine ts)).reads ts = Reader.packageStatement ts := by
  rw [packageStatement, advance_of_front (by simp) h]
  simp only [reads_bind, reads_dottedName, reads_expect_punct, reads_pure]
  rfl

@[simp] theorem reads_statement : statement.reads = Reader.statement := by
  funext ts
  rw [statement, line_bind, peek_bind, Reads.statement_apply]
  cases h : frontToken ts with
  | keyword k =>
      cases k with
      | importing =>
          simp only [Reads.statementKind?, reads_bind, reads_pure]
          exact Reader.bind_congr_at (reads_importStatement h) _
      | package =>
          simp only [Reads.statementKind?, reads_bind, reads_pure]
          exact Reader.bind_congr_at (reads_packageStatement h) _
      | _ => simp [Reads.statementKind?]
  | punct p =>
      cases p with
      | semicolon => exact advance_of_front (by simp) h _
      | _ => rfl
  | _ => rfl

theorem reads_schema : schema.reads = Reader.schema := by
  simp [schema, Reader.schema, Routine.reader]

end Program

open Program

/-- **What is done on a call is what the call stands for.** -/
theorem reads_body {α : Type} (r : Routine α) : r.body.reads = r.reader := by
  cases r with
  | names => exact reads_dotThen _ rfl (reads_call _)
  | segments => exact reads_dotThen _ rfl (reads_call _)
  | assignments =>
      rw [Routine.body, Routine.reader, Reads.assignments_eq, reads_bind, reads_assignment]
      congr 1
      funext _
      rw [Reads.closing, reads_bind, reads_take _ rfl]
      congr 1
      funext more
      cases more with
      | true => exact reads_call .assignments
      | false => rfl
  | values name =>
      funext ts
      rw [Routine.body, Routine.reader, peek_bind]
      by_cases h : frontToken ts = .punct .closeBrace
      · rw [Reader.bind_of_ok (Reader.manyUntil_of_ends (by simp [Reader.isCloseBrace, h])), h]
        exact advance_of_front (by simp) h _
      · rw [Reader.bind_congr_at (Reader.manyUntil_of_more (by simp [Reader.isCloseBrace, h]))]
        cases ht : frontToken ts with
        | punct p => cases p <;> simp_all [Routine.reader]
        | _ => simp [Routine.reader]
  | members name =>
      funext ts
      rw [Routine.body, Routine.reader, peek_bind, Reads.members_apply]
      cases h : frontToken ts with
      | keyword k => cases k <;> simp [Reads.bodyKind?, Routine.reader]
      | punct p =>
          cases p with
          | closeBrace => exact advance_of_front (by simp) h _
          | _ => simp [Reads.bodyKind?, Routine.reader]
      | eof => rfl
      | _ => simp [Reads.bodyKind?, Routine.reader]
  | statements =>
      funext ts
      rw [Routine.body, Routine.reader, peek_bind]
      by_cases h : frontToken ts = .eof
      · rw [Reader.manyUntil_of_ends (by simp [Reader.isEof, h]), h]
        rfl
      · rw [Reader.manyUntil_of_more (by simp [Reader.isEof, h])]
        cases ht : frontToken ts with
        | eof => exact absurd ht h
        | _ => simp [Routine.reader]

end Schemata
