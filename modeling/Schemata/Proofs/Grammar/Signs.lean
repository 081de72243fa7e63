/-
Minus signs in texts that are read.

A sign has two places in the grammar, before the number of an enum value and before the value of
an option, and both say which token is to follow: an integer, and in an option also a number
with a fraction or a name.  Of names only `inf` is meant, but any name is taken.  That a sign has
no other place takes a look at every production, and that no sign stands at the edge of one is
what lets them be put together.
-/
import Schemata.Proofs.Grammar.Files

namespace Schemata

/-! ### Lists of tokens -/

/-- Each minus sign of the list stands directly before a token that may have a sign. -/
inductive Signed : List Located → Prop
  | nil : Signed []
  | plain {t : Located} {ts : List Located} (ht : t.token ≠ .punct .minus) (hts : Signed ts) :
      Signed (t :: ts)
  | minus {t next : Located} {ts : List Located} (ht : t.token = .punct .minus)
      (hnext : (Grammar.signedValue? next.token).isSome) (hts : Signed ts) :
      Signed (t :: next :: ts)

namespace Signed

variable {ts us : List Located}

theorem append (h : Signed ts) (h' : Signed us) : Signed (ts ++ us) := by
  induction h with
  | nil => exact h'
  | plain ht _ ih => exact .plain ht ih
  | minus ht hnext _ ih => exact .minus ht hnext ih

/-- A token that may have a sign is no sign. -/
theorem ne_minus {t : Token} (h : (Grammar.signedValue? t).isSome) : t ≠ .punct .minus := by
  intro hminus
  rw [hminus] at h
  cases h

/-- What stands behind a sign, wherever the list is cut. -/
theorem next_of_split (h : Signed ts) {before after : List Located} {sign : Located}
    (hsplit : ts = before ++ sign :: after) (hsign : sign.token = .punct .minus) :
    ∃ next rest, after = next :: rest ∧ (Grammar.signedValue? next.token).isSome := by
  induction h generalizing before with
  | nil => simp at hsplit
  | plain ht _ ih =>
      cases before with
      | nil =>
          obtain ⟨rfl, -⟩ := List.cons.inj hsplit
          exact absurd hsign ht
      | cons first before => exact ih (List.cons.inj hsplit).2
  | @minus t next ts ht hnext _ ih =>
      cases before with
      | nil =>
          obtain ⟨-, rfl⟩ := List.cons.inj hsplit
          exact ⟨next, ts, rfl, hnext⟩
      | cons first before =>
          obtain ⟨-, hsplit⟩ := List.cons.inj hsplit
          cases before with
          | nil =>
              obtain ⟨rfl, -⟩ := List.cons.inj hsplit
              exact absurd hsign (ne_minus hnext)
          | cons second before => exact ih (List.cons.inj hsplit).2

end Signed

/-! ### Productions -/

namespace Production

variable {α β : Type} {A : Production α} {B : Production β}

/-- In what a tree is written with, each minus sign stands before a token that may have one. -/
def WritesSigned (A : Production α) : Prop := ∀ d, Signed (A.tokens d)

/-- A token that is no sign. -/
theorem writesSigned_token {value? : Token → Option α} (h : value? (.punct .minus) = none) :
    (token value?).WritesSigned := by
  intro d
  refine .plain ?_ .nil
  intro hminus
  have hvalue := d.property
  rw [hminus, h] at hvalue
  cases hvalue

theorem writesSigned_exactly {t : Token} (h : t ≠ .punct .minus) : (exactly t).WritesSigned :=
  writesSigned_token (if_neg (Ne.symm h))

theorem token_of_exactly {t : Token} (d : (exactly t).Tree) : d.val.token = t := by
  by_cases heq : d.val.token = t
  · exact heq
  · exact absurd d.property (by simp [heq])

/-- A sign and a token that may have one. -/
theorem writesSigned_minus {value? : Token → Option α}
    (h : ∀ t, (value? t).isSome → (Grammar.signedValue? t).isSome) :
    ((punct .minus).seq (token value?)).WritesSigned := by
  rintro ⟨sign, next⟩
  exact .minus (token_of_exactly sign) (h _ next.property) .nil

theorem WritesSigned.seq (hA : A.WritesSigned) (hB : B.WritesSigned) :
    (A.seq B).WritesSigned :=
  fun d => (hA d.1).append (hB d.2)

theorem WritesSigned.map {f : α → β} (h : A.WritesSigned) : (A.map f).WritesSigned := h

theorem WritesSigned.lined (h : A.WritesSigned) : A.lined.WritesSigned := h

theorem writesSigned_choice {ι : Type} {A : ι → Production α} (h : ∀ i, (A i).WritesSigned) :
    (choice A).WritesSigned :=
  fun d => h d.1 d.2

theorem WritesSigned.opt (h : A.WritesSigned) : A.opt.WritesSigned := by
  intro d
  cases d with
  | none => exact .nil
  | some d => exact h d

theorem WritesSigned.many (h : A.WritesSigned) : A.many.WritesSigned := by
  intro ds
  induction ds with
  | nil => exact .nil
  | cons d ds ih => exact (h d).append ih

end Production

open Production

namespace Grammar

/-! ### Names, numbers and options -/

theorem writesSigned_punct {p : Punct} (h : p ≠ .minus) : (punct p).WritesSigned :=
  writesSigned_exactly (by simpa using h)

theorem writesSigned_keyword {k : Keyword} : (keyword k).WritesSigned :=
  writesSigned_exactly (by simp)

theorem writesSigned_identifier : identifier.WritesSigned := writesSigned_token rfl

theorem writesSigned_string : string.WritesSigned := writesSigned_token rfl

section

variable {α : Type} {segment? : Token → Option α}

theorem writesSigned_dotTail (h : segment? (.punct .minus) = none) :
    (dotTail segment?).WritesSigned :=
  .many (.map ((writesSigned_punct (by decide)).seq (writesSigned_token h)))

theorem writesSigned_dotted (h : segment? (.punct .minus) = none) :
    (dotted segment?).WritesSigned := by
  unfold dotted
  exact .map ((writesSigned_token h).seq (writesSigned_dotTail h))

end

theorem writesSigned_dottedName : dottedName.WritesSigned := writesSigned_dotted rfl

/-- An integer may have a sign. -/
theorem writesSigned_signedInteger : signedInteger.WritesSigned := by
  refine writesSigned_choice fun negative => ?_
  cases negative with
  | true =>
      refine .map (writesSigned_minus fun t ht => ?_)
      cases t with
      | int n => rfl
      | _ => cases ht
  | false => exact writesSigned_token rfl

theorem writesSigned_optionHead : optionHead.WritesSigned := by
  refine writesSigned_choice fun start => ?_
  cases start with
  | plain => exact writesSigned_token rfl
  | custom =>
      exact .map ((writesSigned_punct (by decide)).seq
        ((writesSigned_dotted rfl).seq (writesSigned_punct (by decide))))

theorem writesSigned_optionName : optionName.WritesSigned := by
  unfold optionName
  exact .map (writesSigned_optionHead.seq (writesSigned_dotTail rfl))

/-- The value of an option has its sign before a token that may have one. -/
theorem writesSigned_constant : constant.WritesSigned := by
  refine writesSigned_choice fun kind => ?_
  cases kind with
  | negative => exact .map (writesSigned_minus fun _ ht => ht)
  | name => exact .map writesSigned_dottedName
  | literal => exact writesSigned_token rfl

theorem writesSigned_assignment : assignment.WritesSigned := by
  unfold assignment
  exact .map (writesSigned_optionName.seq
    ((writesSigned_punct (by decide)).seq writesSigned_constant))

theorem writesSigned_optionStatement : optionStatement.WritesSigned := by
  unfold optionStatement
  exact .map (writesSigned_keyword.seq
    (writesSigned_assignment.seq (writesSigned_punct (by decide))))

theorem writesSigned_assignments : assignments.WritesSigned := by
  unfold assignments
  have hmore : moreAssignments.WritesSigned :=
    .many (.map ((writesSigned_punct (by decide)).seq writesSigned_assignment))
  exact .map (writesSigned_assignment.seq (hmore.seq (writesSigned_punct (by decide))))

theorem writesSigned_fieldOptions : fieldOptions.WritesSigned := by
  unfold fieldOptions
  exact .map (.opt ((writesSigned_punct (by decide)).seq writesSigned_assignments))

/-! ### Fields and enums -/

theorem writesSigned_typeRef : typeRef.WritesSigned := by
  refine writesSigned_choice fun kind => ?_
  cases kind with
  | scalar => exact .map (writesSigned_token rfl)
  | named => exact .map writesSigned_dottedName

theorem writesSigned_field : field.WritesSigned := by
  unfold field
  have hlabel : optionalLabel.WritesSigned := .opt (writesSigned_token rfl)
  have hnumber : (token (int32? false)).WritesSigned := writesSigned_token rfl
  have hend : (punct .semicolon).WritesSigned := writesSigned_punct (by decide)
  exact .map (.lined (hlabel.seq (writesSigned_typeRef.seq (writesSigned_identifier.seq
    ((writesSigned_punct (by decide)).seq (hnumber.seq (writesSigned_fieldOptions.seq hend)))))))

theorem writesSigned_enumValue : enumValue.WritesSigned := by
  unfold enumValue
  have hend : (punct .semicolon).WritesSigned := writesSigned_punct (by decide)
  exact .map (.lined (writesSigned_identifier.seq ((writesSigned_punct (by decide)).seq
    (writesSigned_signedInteger.seq (writesSigned_fieldOptions.seq hend)))))

theorem writesSigned_enumItem : enumItem.WritesSigned := by
  refine writesSigned_choice fun kind => ?_
  cases kind with
  | option => exact .map writesSigned_optionStatement
  | empty => exact .map (writesSigned_punct (by decide))
  | value => exact .map writesSigned_enumValue

theorem writesSigned_enum : enum.WritesSigned := by
  unfold enum
  have hitems : enumItems.WritesSigned := .map (.many writesSigned_enumItem)
  exact .map (.lined (writesSigned_keyword.seq (writesSigned_identifier.seq
    ((writesSigned_punct (by decide)).seq (hitems.seq (writesSigned_punct (by decide)))))))

/-! ### Messages -/

theorem writesSigned_messageHead : messageHead.WritesSigned := by
  unfold messageHead
  exact .map (writesSigned_keyword.seq
    (writesSigned_identifier.seq (writesSigned_punct (by decide))))

theorem writesSigned_plainMember : plainMember.WritesSigned := by
  refine writesSigned_choice fun kind => ?_
  cases kind with
  | enum => exact .map writesSigned_enum
  | option => exact .map writesSigned_optionStatement
  | empty => exact .map (writesSigned_punct (by decide))
  | field => exact .map writesSigned_field

/-- By induction on the body, whose messages have bodies of their own. -/
theorem writesSigned_members : members.WritesSigned := by
  intro body
  show Signed body.tokens
  induction body with
  | close brace =>
      have hclose : (punct .closeBrace).WritesSigned := writesSigned_punct (by decide)
      exact hclose brace
  | plain member rest ih => exact (writesSigned_plainMember member).append ih
  | message head inner rest ihInner ihRest =>
      exact (writesSigned_messageHead head).append (ihInner.append ihRest)

theorem writesSigned_message : message.WritesSigned := by
  unfold message
  exact .map (.lined (writesSigned_messageHead.seq writesSigned_members))

/-! ### The whole text -/

theorem writesSigned_importKind : importKind.WritesSigned := by
  unfold importKind
  exact .map (.opt (writesSigned_token rfl))

theorem writesSigned_importStatement : importStatement.WritesSigned := by
  unfold importStatement
  exact .map (.lined (writesSigned_keyword.seq (writesSigned_importKind.seq
    (writesSigned_string.seq (writesSigned_punct (by decide))))))

theorem writesSigned_packageStatement : packageStatement.WritesSigned := by
  unfold packageStatement
  exact .map (.lined (writesSigned_keyword.seq
    (writesSigned_dottedName.seq (writesSigned_punct (by decide)))))

theorem writesSigned_statement : statement.WritesSigned := by
  refine writesSigned_choice fun kind => ?_
  cases kind with
  | importing => exact .map writesSigned_importStatement
  | package => exact .map writesSigned_packageStatement
  | message => exact .map writesSigned_message
  | enum => exact .map writesSigned_enum
  | option => exact .map writesSigned_optionStatement
  | empty => exact .map (writesSigned_punct (by decide))

theorem writesSigned_schema : schema.WritesSigned := by
  have hstatements : statements.WritesSigned := .map (.many writesSigned_statement)
  unfold schema
  exact .map (writesSigned_keyword.seq ((writesSigned_punct (by decide)).seq
    (writesSigned_string.seq ((writesSigned_punct (by decide)).seq hstatements))))

/-- **Every text of the grammar has its signs before numbers and names.** -/
theorem writesSigned_file : file.WritesSigned := by
  unfold file
  exact .map (writesSigned_schema.seq (writesSigned_exactly (by simp)))

end Grammar

/-! ### What is read -/

/-- What is read has its signs before numbers and names. -/
theorem signed_of_read {ts : List Located} {s : Schema} (hts : Terminated ts)
    (hread : Schema.read ts = .ok s) : Signed ts := by
  obtain ⟨d, rfl, -⟩ := exists_tree_of_read hts hread
  exact Grammar.writesSigned_file d

/-- **A minus sign stands before a number or `inf`.**  In what is read each sign is directly
followed by an integer, a number with a fraction or the name `inf`.  That a name behind the sign
is `inf` is not looked at, and has to be known. -/
theorem Schema.read_signs {ts before after : List Located} {s : Schema} {sign : Located}
    (hts : Terminated ts) (hread : Schema.read ts = .ok s)
    (hsplit : ts = before ++ sign :: after) (hsign : sign.token = .punct .minus)
    (hname : ∀ next rest name, after = next :: rest → next.token = .ident name → name = "inf") :
    ∃ next rest, after = next :: rest ∧
      ((∃ n, next.token = .int n) ∨ (∃ digits, next.token = .float digits) ∨
        next.token = .ident "inf") := by
  obtain ⟨next, rest, rfl, hnext⟩ := (signed_of_read hts hread).next_of_split hsplit hsign
  refine ⟨next, rest, rfl, ?_⟩
  cases htoken : next.token with
  | int n => exact .inl ⟨n, rfl⟩
  | float digits => exact .inr (.inl ⟨digits, rfl⟩)
  | ident name =>
      obtain rfl := hname next rest name rfl htoken
      exact .inr (.inr rfl)
  | _ =>
      rw [htoken] at hnext
      cases hnext

/-- The tokens up to the sign of `syntax="proto3";option a=-`, which is to stand on one line. -/
def untilSign : List Located :=
  [⟨.keyword .edition, ⟨1, 1⟩⟩, ⟨.punct .equals, ⟨1, 7⟩⟩, ⟨.str "proto3", ⟨1, 8⟩⟩,
    ⟨.punct .semicolon, ⟨1, 16⟩⟩, ⟨.keyword .option, ⟨1, 17⟩⟩, ⟨.ident "a", ⟨1, 24⟩⟩,
    ⟨.punct .equals, ⟨1, 25⟩⟩]

/-- What stands behind the sign, where a word of three letters follows it. -/
def behindSign (word : String) : List Located :=
  [⟨.ident word, ⟨1, 27⟩⟩, ⟨.punct .semicolon, ⟨1, 30⟩⟩, ⟨.eof, ⟨1, 31⟩⟩]

/-- An option that is less than nothing. -/
theorem read_signs_inf :
    let ts := untilSign ++ ⟨.punct .minus, ⟨1, 26⟩⟩ :: behindSign "inf"
    lex "syntax=\"proto3\";option a=-inf;" = .ok ts ∧ Terminated ts ∧
    (∃ s, Schema.read ts = .ok s) ∧
    ∃ next rest, behindSign "inf" = next :: rest ∧
      ((∃ n, next.token = .int n) ∨ (∃ digits, next.token = .float digits) ∨
        next.token = .ident "inf") := by
  intro ts
  have hlex : lex "syntax=\"proto3\";option a=-inf;" = .ok ts :=
    Fallible.toOption_eq_some.mp (by decide +kernel)
  have hread : (Schema.read ts).toOption.isSome = true := by decide +kernel
  obtain ⟨s, hs⟩ := Option.isSome_iff_exists.mp hread
  have hs : Schema.read ts = .ok s := Fallible.toOption_eq_some.mp hs
  have hts : Terminated ts := (lexed_lex hlex).terminated
  refine ⟨hlex, hts, ⟨s, hs⟩, Schema.read_signs hts hs rfl rfl ?_⟩
  rintro next rest name hafter hname
  obtain ⟨rfl, -⟩ := List.cons.inj hafter
  exact (Token.ident.inj hname).symm

/-- Any other word is taken behind a sign as well. -/
theorem read_sign_before_word :
    let ts := untilSign ++ ⟨.punct .minus, ⟨1, 26⟩⟩ :: behindSign "foo"
    lex "syntax=\"proto3\";option a=-foo;" = .ok ts ∧
    (∃ s, Schema.read ts = .ok s) ∧
    ¬ ∃ next rest, behindSign "foo" = next :: rest ∧
      ((∃ n, next.token = .int n) ∨ (∃ digits, next.token = .float digits) ∨
        next.token = .ident "inf") := by
  intro ts
  have hread : (Schema.read ts).toOption.isSome = true := by decide +kernel
  obtain ⟨s, hs⟩ := Option.isSome_iff_exists.mp hread
  refine ⟨Fallible.toOption_eq_some.mp (by decide +kernel),
    ⟨s, Fallible.toOption_eq_some.mp hs⟩, ?_⟩
  rintro ⟨next, rest, hafter, hnext⟩
  obtain ⟨rfl, -⟩ := List.cons.inj hafter
  simp at hnext

end Schemata
