/-
Where a program goes on.

To go on checks nothing, so it is the program that has to know that it does not stand at the
end of input.  A program is careful if it does, whatever token it begins at: it goes on only
where it has seen another token since it last did.

The same walk over a program tells whether it has gone on before it calls, which is why the
calls come to an end: what is called does so before it calls again.
-/
import Schemata.Proofs.Cursor.Program

namespace Schemata

open Reader (number? label? scalar?)

namespace Program

variable {α β : Type} {b m c : Bool} {t : Token}

/-- At the token `t` the program goes on over no end of input, neither here nor later, and
calls nothing before it has gone on.  Whether it has is `before` where it begins; where it is
done it has if `after`. -/
def CarefulAt : Program α → (before after : Bool) → Token → Prop
  | .done _, before, after, _ => after = true → before = true
  | .refused _, _, _, _ => True
  | .looking next, before, after, t => (next t).CarefulAt before after t
  | .lining next, before, after, t => ∀ n, (next n).CarefulAt before after t
  | .advancing next, _, after, t => t ≠ .eof ∧ ∀ u, next.CarefulAt true after u
  | .calling _ next, before, after, _ => before = true ∧ ∀ a u, (next a).CarefulAt true after u

/-- The program is careful whatever token it begins at. -/
def Careful (p : Program α) (before after : Bool) : Prop := ∀ t, p.CarefulAt before after t

/-! ### Putting programs together -/

theorem CarefulAt.weaken {b' c' : Bool} {p : Program α} (h : p.CarefulAt b c t)
    (hbefore : b = true → b' = true) (hafter : c' = true → c = true ∨ b' = true) :
    p.CarefulAt b' c' t := by
  induction p generalizing b b' t with
  | done a => exact fun hc' => (hafter hc').elim (fun hc => hbefore (h hc)) id
  | refused fault => trivial
  | looking next ih => exact ih t h hbefore hafter
  | lining next ih => exact fun n => ih n (h n) hbefore hafter
  | advancing next ih => exact ⟨h.1, fun u => ih (h.2 u) id fun _ => .inr rfl⟩
  | calling r next ih => exact ⟨hbefore h.1, fun a u => ih a (h.2 a u) id fun _ => .inr rfl⟩

/-- What has gone on already may call all the sooner, and has gone on when it is done. -/
theorem CarefulAt.moved {p : Program α} (h : p.CarefulAt b m t) : p.CarefulAt true c t :=
  h.weaken (fun _ => rfl) fun _ => .inr rfl

/-- What has gone on when it is done is careful if that is not asked for. -/
theorem CarefulAt.forget {p : Program α} (h : p.CarefulAt b c t) : p.CarefulAt b false t :=
  h.weaken id nofun

theorem CarefulAt.bind {p : Program α} {f : α → Program β} (hp : p.CarefulAt b m t)
    (hf : ∀ a, (f a).Careful m c) : (p >>= f).CarefulAt b c t := by
  show (p.andThen f).CarefulAt b c t
  induction p generalizing b t with
  | done a =>
      cases b with
      | true => exact (hf a t).moved
      | false =>
          have hm : m = false := by simpa using mt hp (by simp)
          exact hm ▸ hf a t
  | refused fault => trivial
  | looking next ih => exact ih t hp
  | lining next ih => exact fun n => ih n (hp n)
  | advancing next ih => exact ⟨hp.1, fun u => ih (hp.2 u)⟩
  | calling r next ih => exact ⟨hp.1, fun a u => ih a (hp.2 a u)⟩

theorem Careful.bind {p : Program α} {f : α → Program β} (hp : p.Careful b m)
    (hf : ∀ a, (f a).Careful m c) : (p >>= f).Careful b c := fun t => (hp t).bind hf

theorem careful_pure {a : α} : Careful (pure a) b b := fun _ => id

/-- Once it has gone on, a program may be done. -/
theorem careful_return {a : α} : Careful (pure a) true c := fun _ _ => rfl

theorem careful_line : line.Careful b b := fun _ _ h => h

theorem careful_call {r : Routine α} : (call r).Careful true true :=
  fun _ => ⟨rfl, fun _ _ => id⟩

/-- A program that looks first is careful if it is at the token it sees. -/
theorem careful_peek {f : Token → Program α} (h : ∀ t, (f t).CarefulAt b c t) :
    (peek >>= f).Careful b c := h

/-- To go on is careful at any token but the end of input. -/
theorem careful_advance {f : Unit → Program α} (ht : t ≠ .eof) (h : (f ()).Careful true c) :
    (advance >>= f).CarefulAt b c t := ⟨ht, h⟩

theorem careful_take {wanted : Expected} {value? : Token → Option α} (h : value? .eof = none) :
    (take wanted value?).Careful b true := by
  refine careful_peek fun t => ?_
  cases ht : value? t with
  | none => trivial
  | some a =>
      refine careful_advance (fun heof => ?_) careful_return
      rw [heof, h] at ht
      cases ht

theorem careful_expect_punct (p : Punct) : (expect (.punct p)).Careful b true :=
  careful_take (by simp)

theorem careful_expect_keyword (k : Keyword) : (expect (.keyword k)).Careful b true :=
  careful_take (by simp)

theorem careful_accept (p : Punct) : (accept (.punct p)).Careful b b := by
  refine careful_peek fun t => ?_
  split
  · rename_i ht
    exact careful_advance (by simp [ht]) careful_return
  · exact careful_pure t

/-! ### Leaves -/

theorem careful_identifier : identifier.Careful b true := careful_take rfl

theorem careful_string : string.Careful b true := careful_take rfl

theorem careful_dotThen {part : Program α} {more : Program (List α)}
    (hpart : part.Careful true true) (hmore : more.Careful true true) :
    (dotThen part more).Careful b b := by
  refine careful_peek fun t => ?_
  split
  · rename_i ht
    exact careful_advance (by simp [ht])
      (hpart.bind fun _ => hmore.bind fun _ => careful_return)
  · exact careful_pure t

theorem careful_dottedName : dottedName.Careful b true :=
  careful_identifier.bind fun _ => careful_call.bind fun _ => careful_return

theorem careful_integer (negative : Bool) : (integer negative).Careful b true := by
  refine careful_peek fun t => ?_
  cases t with
  | int n =>
      dsimp only
      cases number? (if negative then -n else n) with
      | some value => exact careful_advance (by simp) careful_return
      | none =>
          dsimp only
          split <;> trivial
  | _ => trivial

theorem careful_signedInteger : signedInteger.Careful b true :=
  (careful_accept _).bind fun negative => careful_integer negative

/-! ### Options -/

theorem careful_segment : segment.Careful b true := careful_take rfl

theorem careful_optionHead : optionHead.Careful b true := by
  refine (careful_accept _).bind fun opened => ?_
  cases opened with
  | true =>
      exact careful_segment.bind fun _ => careful_call.bind fun _ => careful_expect_punct _
  | false => exact careful_segment

theorem careful_optionName : optionName.Careful b true :=
  careful_optionHead.bind fun _ => careful_call.bind fun _ => careful_return

theorem careful_constant : constant.Careful b true := by
  refine (careful_accept _).bind fun negative => ?_
  cases negative with
  | true => exact careful_take rfl
  | false =>
      refine careful_peek fun t => ?_
      cases t with
      | ident w => exact (careful_dottedName.bind fun _ => careful_return) _
      | _ => exact careful_take rfl _

theorem careful_assignment : assignment.Careful b true :=
  careful_optionName.bind fun _ => (careful_expect_punct _).bind fun _ => careful_constant

theorem careful_optionStatement : optionStatement.Careful b true :=
  (careful_expect_keyword _).bind fun _ => careful_assignment.bind fun _ => careful_expect_punct _

theorem careful_fieldOptions : fieldOptions.Careful true true := by
  refine (careful_accept _).bind fun opened => ?_
  cases opened with
  | true => exact careful_call
  | false => exact careful_return

/-! ### Fields and enums -/

theorem careful_optionalLabel : optionalLabel.Careful b b := by
  refine careful_peek fun t => ?_
  cases ht : label? t with
  | none => exact careful_pure t
  | some l =>
      refine careful_advance (fun heof => ?_) careful_return
      rw [heof] at ht
      cases ht

theorem careful_typeRef : typeRef.Careful b true := by
  have hscalar : (do return .scalar (← take .fieldType scalar?) : Program TypeRef).Careful b true :=
    (careful_take rfl).bind fun _ => careful_return
  refine careful_peek fun t => ?_
  cases t with
  | ident w => exact (careful_dottedName.bind fun _ => careful_return) _
  | _ => exact hscalar _

theorem careful_field : field.Careful b true :=
  careful_line.bind fun _ => careful_optionalLabel.bind fun _ => careful_typeRef.bind fun _ =>
    careful_identifier.bind fun _ => (careful_expect_punct _).bind fun _ =>
    (careful_integer _).bind fun _ => careful_fieldOptions.bind fun _ =>
    (careful_expect_punct _).bind fun _ => careful_return

theorem careful_enumValue : enumValue.Careful b true :=
  careful_line.bind fun _ => careful_identifier.bind fun _ => (careful_expect_punct _).bind fun _ =>
    careful_signedInteger.bind fun _ => careful_fieldOptions.bind fun _ =>
    (careful_expect_punct _).bind fun _ => careful_return

theorem careful_skipOption (a : α) : (do optionStatement; return a : Program α).Careful b true :=
  careful_optionStatement.bind fun _ => careful_return

theorem careful_enumItem (name : String) : (enumItem name).Careful b true := by
  refine careful_peek fun t => ?_
  split
  · exact careful_skipOption _ _
  · exact careful_advance (by simp) careful_return
  · trivial
  · exact (careful_enumValue.bind fun _ => careful_return) t

theorem careful_enum : enum.Careful b true :=
  careful_line.bind fun _ => (careful_expect_keyword _).bind fun _ =>
    careful_identifier.bind fun _ => (careful_expect_punct _).bind fun _ =>
    careful_call.bind fun _ => careful_return

/-! ### Messages and statements -/

theorem careful_message : message.Careful b true :=
  careful_line.bind fun _ => (careful_expect_keyword _).bind fun _ =>
    careful_identifier.bind fun _ => (careful_expect_punct _).bind fun _ =>
    careful_call.bind fun _ => careful_return

theorem careful_plainMember : plainMember.Careful b true := by
  refine careful_peek fun t => ?_
  split
  · exact (careful_enum.bind fun _ => careful_return) _
  · exact careful_skipOption _ _
  · exact careful_advance (by simp) careful_return
  · exact (careful_field.bind fun _ => careful_return) t

theorem careful_importKind : importKind.Careful b b := by
  refine careful_peek fun t => ?_
  split
  · exact careful_advance (by simp) careful_return
  · exact careful_advance (by simp) careful_return
  · exact careful_pure t

/-- An import goes on without a look, so it must begin at a token that is no end. -/
theorem careful_importStatement (line : Nat) (ht : t ≠ .eof) :
    (importStatement line).CarefulAt b true t :=
  careful_advance ht (careful_importKind.bind fun _ => careful_string.bind fun _ =>
    (careful_expect_punct _).bind fun _ => careful_return)

theorem careful_packageStatement (line : Nat) (ht : t ≠ .eof) :
    (packageStatement line).CarefulAt b true t :=
  careful_advance ht (careful_dottedName.bind fun _ =>
    (careful_expect_punct _).bind fun _ => careful_return)

theorem careful_statement : statement.Careful b true := by
  refine careful_line.bind fun line => careful_peek fun t => ?_
  split
  · exact (careful_importStatement line (by simp)).bind fun _ => careful_return
  · exact (careful_packageStatement line (by simp)).bind fun _ => careful_return
  · exact (careful_message.bind fun _ => careful_return) _
  · exact (careful_enum.bind fun _ => careful_return) _
  · exact careful_skipOption _ _
  · exact careful_advance (by simp) careful_return
  · trivial

theorem careful_schema : schema.Careful b true :=
  (careful_expect_keyword _).bind fun _ => (careful_expect_punct _).bind fun _ =>
    careful_string.bind fun _ => (careful_expect_punct _).bind fun _ =>
    careful_call.bind fun _ => careful_return

end Program

open Program

/-- **What is called is careful**, and goes on before it calls again. -/
theorem careful_body {α : Type} (r : Routine α) : r.body.Careful false false := by
  cases r with
  | names => exact careful_dotThen careful_identifier careful_call
  | segments => exact careful_dotThen careful_segment careful_call
  | assignments =>
      have hmore : ∀ more : Bool, (if more then call .assignments else pure () :
          Program Unit).Careful true true := by
        intro more
        cases more with
        | true => exact careful_call
        | false => exact careful_pure
      exact fun t => (careful_assignment.bind fun _ => (careful_take rfl).bind hmore) t |>.forget
  | values name =>
      refine careful_peek fun t => ?_
      split
      · exact careful_advance (by simp) careful_return
      · exact ((careful_enumItem name).bind fun _ => careful_call.bind fun _ => careful_return) t
  | members name =>
      refine careful_peek fun t => ?_
      split
      · exact careful_advance (by simp) careful_return
      · exact (careful_message.bind fun _ => careful_call.bind fun _ => careful_return) _
      · trivial
      · exact (careful_plainMember.bind fun _ => careful_call.bind fun _ => careful_return) t
  | statements =>
      refine careful_peek fun t => ?_
      split
      · exact careful_pure _
      · exact (careful_statement.bind fun _ => careful_call.bind fun _ => careful_return) t

end Schemata
