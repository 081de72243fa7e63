/-
Reading does not look at places.

A tree stays a tree when its tokens are moved about, and all that changes in its value are
the lines of declarations.  One lemma for each production says so, the way the grammar puts
it together; so two lists with the same tokens are read alike, up to lines.
-/
import Schemata.Proofs.Grammar.Files
import Schemata.Proofs.Lowering.Bare

namespace Schemata

open Production

namespace Grammar

/-- Values that do not matter. -/
def Whatever {α : Type} (_ _ : α) : Prop := True

/-! ### Names and numbers -/

section

variable {α : Type} {segment? : Token → Option α}

theorem placeless_dotTail : (dotTail segment?).Placeless Eq := by
  have hsegment : (((punct .dot).seq (token segment?)).map Prod.snd).Placeless
      fun a b => id a = id b :=
    .map (.mono (.seq placeless_exactly placeless_token) fun _ _ h => h.2)
  unfold dotTail
  exact .mono (.many hsegment) fun as bs h => by simpa using h

theorem placeless_dotted : (dotted segment?).Placeless Eq := by
  unfold dotted
  refine .map (.mono (.seq placeless_token placeless_dotTail) ?_)
  rintro ⟨a, as⟩ ⟨b, bs⟩ ⟨rfl, rfl⟩
  rfl

end

theorem placeless_signedInteger : signedInteger.Placeless Eq := by
  refine placeless_choice fun negative => ?_
  cases negative with
  | true => exact .map (.mono (.seq placeless_exactly placeless_token) fun _ _ h => h.2)
  | false => exact placeless_token

/-! ### Options -/

theorem placeless_optionName : optionName.Placeless Whatever := by
  have hhead : optionHead.Placeless Whatever := by
    refine placeless_choice fun start => ?_
    cases start with
    | plain => exact .mono placeless_token fun _ _ _ => trivial
    | custom =>
        exact .map (.mono (.seq placeless_exactly (.seq placeless_dotted placeless_exactly))
          fun _ _ _ => trivial)
  unfold optionName
  exact .map (.mono (.seq hhead placeless_dotTail) fun _ _ _ => trivial)

theorem placeless_constant : constant.Placeless Whatever := by
  refine placeless_choice fun kind => ?_
  cases kind with
  | negative => exact .map (.mono (.seq placeless_exactly placeless_token) fun _ _ _ => trivial)
  | name => exact .map (.mono placeless_dotted fun _ _ _ => trivial)
  | literal => exact .mono placeless_token fun _ _ _ => trivial

theorem placeless_assignment : assignment.Placeless Whatever := by
  unfold assignment
  exact .map (.mono (.seq placeless_optionName (.seq placeless_exactly placeless_constant))
    fun _ _ _ => trivial)

theorem placeless_optionStatement : optionStatement.Placeless Whatever := by
  unfold optionStatement
  exact .map (.mono (.seq placeless_exactly (.seq placeless_assignment placeless_exactly))
    fun _ _ _ => trivial)

theorem placeless_fieldOptions : fieldOptions.Placeless Whatever := by
  have hmore : moreAssignments.Placeless Whatever := by
    have hnext : (((punct .comma).seq assignment).map Prod.snd).Placeless
        fun _ _ => () = () :=
      .map (.mono (.seq placeless_exactly placeless_assignment) fun _ _ _ => rfl)
    unfold moreAssignments
    exact .mono (.many (f := fun _ => ()) hnext) fun _ _ _ => trivial
  have hopened : ((punct .openBracket).seq assignments).Placeless fun _ _ => () = () := by
    have hall : assignments.Placeless Whatever := by
      unfold assignments
      exact .map (.mono (.seq placeless_assignment (.seq hmore placeless_exactly))
        fun _ _ _ => trivial)
    exact .mono (.seq placeless_exactly hall) fun _ _ _ => rfl
  unfold fieldOptions
  exact .map (.mono (.opt (f := fun _ => ()) hopened) fun _ _ _ => trivial)

/-! ### Fields and enums -/

theorem placeless_typeRef : typeRef.Placeless Eq := by
  refine placeless_choice fun kind => ?_
  cases kind with
  | scalar => exact .map (.mono placeless_token fun _ _ h => congrArg TypeRef.scalar h)
  | named => exact .map (.mono placeless_dotted fun _ _ h => congrArg TypeRef.named h)

theorem placeless_field : field.Placeless fun f g => f.bare = g.bare := by
  have hlabel : optionalLabel.Placeless Eq := by
    unfold optionalLabel
    exact .mono (.opt (f := id) placeless_token) fun _ _ h => by simpa using h
  unfold field
  refine .map (.mono (.lined (.seq hlabel (.seq placeless_typeRef (.seq placeless_token
    (.seq placeless_exactly (.seq placeless_token (.seq placeless_fieldOptions
      placeless_exactly))))))) ?_)
  rintro ⟨_, _, _, _, _, _, _, _⟩ ⟨_, _, _, _, _, _, _, _⟩ ⟨rfl, rfl, rfl, -, rfl, -, -⟩
  rfl

theorem placeless_enumItems :
    enumItems.Placeless fun vs ws => vs.map ValueDecl.bare = ws.map ValueDecl.bare := by
  have hvalue : enumValue.Placeless fun v w => v.bare = w.bare := by
    unfold enumValue
    refine .map (.mono (.lined (.seq placeless_token (.seq placeless_exactly
      (.seq placeless_signedInteger (.seq placeless_fieldOptions placeless_exactly))))) ?_)
    rintro ⟨_, _, _, _, _, _⟩ ⟨_, _, _, _, _, _⟩ ⟨rfl, -, rfl, -, -⟩
    rfl
  have hitem : enumItem.Placeless fun vs ws =>
      vs.map ValueDecl.bare = ws.map ValueDecl.bare := by
    refine placeless_choice fun kind => ?_
    cases kind with
    | option => exact .map (.mono placeless_optionStatement fun _ _ _ => rfl)
    | empty => exact .map (.mono placeless_exactly fun _ _ _ => rfl)
    | value => exact .map (.mono hvalue fun _ _ h => congrArg ([·]) h)
  unfold enumItems
  refine .map (.mono (.many hitem) fun vss wss h => ?_)
  rw [List.map_flatten, List.map_flatten, h]

theorem placeless_enum : enum.Placeless fun e e' => e.bare = e'.bare := by
  unfold enum
  refine .map (.mono (.lined (.seq placeless_exactly (.seq placeless_token (.seq placeless_exactly
    (.seq placeless_enumItems placeless_exactly))))) ?_)
  rintro ⟨_, _, _, _, _, _⟩ ⟨_, _, _, _, _, _⟩ ⟨-, rfl, -, hvalues, -⟩
  simp only [EnumDecl.bare, hvalues]

/-! ### Messages -/

theorem placeless_messageHead : messageHead.Placeless Eq := by
  unfold messageHead
  exact .map (.mono (.seq placeless_exactly (.seq placeless_token placeless_exactly))
    fun _ _ h => h.2.1)

theorem placeless_plainMember :
    plainMember.Placeless fun ms ns => ms.map Member.bare = ns.map Member.bare := by
  refine placeless_choice fun kind => ?_
  cases kind with
  | enum =>
      refine .map (.mono placeless_enum fun e e' h => ?_)
      simp [Member.bare, h]
  | option => exact .map (.mono placeless_optionStatement fun _ _ _ => rfl)
  | empty => exact .map (.mono placeless_exactly fun _ _ _ => rfl)
  | field =>
      refine .map (.mono placeless_field fun f g h => ?_)
      simp [Member.bare, h]

/-- A body does not look at places, by induction on its tree. -/
theorem placeless_members :
    members.Placeless fun ms ns => ms.map Member.bare = ns.map Member.bare := by
  intro body ts hts
  change ts.map (·.token) = body.tokens.map (·.token) at hts
  induction body generalizing ts with
  | close brace =>
      obtain ⟨brace', htokens, -⟩ := placeless_exactly brace ts hts
      exact ⟨.close brace', htokens, rfl⟩
  | plain member rest ih =>
      rw [Body.tokens, List.map_append] at hts
      obtain ⟨ts₁, ts₂, rfl, hts₁, hts₂⟩ := List.map_eq_append_iff.mp hts
      obtain ⟨member', rfl, hmember⟩ := placeless_plainMember member ts₁ hts₁
      obtain ⟨rest', rfl, hrest⟩ := ih ts₂ hts₂
      refine ⟨.plain member' rest', rfl, ?_⟩
      simp only [members, Body.members, List.map_append] at hrest ⊢
      rw [hmember, hrest]
  | message head inner rest ihinner ihrest =>
      rw [Body.tokens, List.map_append, List.map_append] at hts
      obtain ⟨ts₁, ts₂, rfl, hts₁, hts₂⟩ := List.map_eq_append_iff.mp hts
      obtain ⟨ts₂, ts₃, rfl, hts₂, hts₃⟩ := List.map_eq_append_iff.mp hts₂
      obtain ⟨head', rfl, hhead⟩ := placeless_messageHead head ts₁ hts₁
      obtain ⟨inner', rfl, hinner⟩ := ihinner ts₂ hts₂
      obtain ⟨rest', rfl, hrest⟩ := ihrest ts₃ hts₃
      refine ⟨.message head' inner' rest', rfl, ?_⟩
      simp only [members, Body.members, List.map_cons, Member.bare, Member.bareIn_eq_map]
        at hinner hrest ⊢
      rw [hhead, hinner, hrest]

/-! ### The whole text -/

theorem placeless_importStatement : importStatement.Placeless fun i j => i.bare = j.bare := by
  have hkind : importKind.Placeless Eq := by
    unfold importKind
    refine .map (.mono (.opt (f := id) placeless_token) fun a b h => ?_)
    rw [show a = b by simpa using h]
  unfold importStatement
  refine .map (.mono (.lined (.seq placeless_exactly (.seq hkind (.seq placeless_token
    placeless_exactly)))) ?_)
  rintro ⟨_, _, _, _, _⟩ ⟨_, _, _, _, _⟩ ⟨-, rfl, rfl, -⟩
  rfl

theorem placeless_packageStatement : packageStatement.Placeless fun d e => d.bare = e.bare := by
  unfold packageStatement
  refine .map (.mono (.lined (.seq placeless_exactly (.seq placeless_dotted placeless_exactly))) ?_)
  rintro ⟨_, _, _, _⟩ ⟨_, _, _, _⟩ ⟨-, rfl, -⟩
  rfl

theorem placeless_statement :
    statement.Placeless fun ds es => ds.map Decl.bare = es.map Decl.bare := by
  refine placeless_choice fun kind => ?_
  cases kind with
  | importing =>
      refine .map (.mono placeless_importStatement fun i j h => ?_)
      simp [Decl.bare, h]
  | package => exact .map (.mono placeless_packageStatement fun _ _ h => congrArg ([·]) h)
  | message =>
      refine .map ?_
      unfold message
      refine .map (.mono (.lined (.seq placeless_messageHead placeless_members)) ?_)
      rintro ⟨_, name, body⟩ ⟨_, name', body'⟩ ⟨rfl, hbody⟩
      simp [Decl.bare, Member.bareIn_eq_map, hbody]
  | enum =>
      refine .map (.mono placeless_enum fun e e' h => ?_)
      simp [Decl.bare, h]
  | option => exact .map (.mono placeless_optionStatement fun _ _ _ => rfl)
  | empty => exact .map (.mono placeless_exactly fun _ _ _ => rfl)

theorem placeless_schema : schema.Placeless fun s s' => s.bare = s'.bare := by
  have hstatements : statements.Placeless fun ds es =>
      ds.map Decl.bare = es.map Decl.bare := by
    unfold statements
    refine .map (.mono (.many placeless_statement) fun dss ess h => ?_)
    rw [List.map_flatten, List.map_flatten, h]
  unfold schema
  refine .map (.mono (.seq placeless_exactly (.seq placeless_exactly (.seq placeless_token
    (.seq placeless_exactly hstatements)))) ?_)
  rintro ⟨_, _, _, _, _⟩ ⟨_, _, _, _, _⟩ ⟨-, -, rfl, -, hdecls⟩
  simp only [Schema.bare, hdecls]

end Grammar

theorem frontToken_eq_of_map {ts ts' : List Located}
    (h : ts'.map (·.token) = ts.map (·.token)) : frontToken ts' = frontToken ts := by
  cases ts <;> cases ts' <;> simp_all [frontToken]

/-- **Lists with the same tokens are read alike**, up to lines. -/
theorem Schema.read_of_same_tokens {ts ts' : List Located} {s : Schema}
    (h : ts'.map (·.token) = ts.map (·.token)) (hs : Schema.read ts = .ok s) :
    ∃ s', Schema.read ts' = .ok s' ∧ s'.bare = s.bare := by
  obtain ⟨hlast, rest, hschema⟩ := read_ok_iff_schema.mp hs
  have hends := Reader.schema_ends hschema
  obtain ⟨d, rfl, rfl⟩ := Reads.schema.sound hschema
  rw [List.map_append] at h
  obtain ⟨used, rest', rfl, hused, hrest⟩ := List.map_eq_append_iff.mp h
  obtain ⟨d', rfl, hvalue⟩ := Grammar.placeless_schema d used hused
  rw [← frontToken_eq_of_map hrest] at hends
  refine ⟨_, read_ok_iff_schema.mpr ⟨?_, rest', Reads.schema.complete d' rest' hends⟩, hvalue.symm⟩
  rw [← List.getLast?_map] at hlast ⊢
  rw [List.map_append, hused, hrest, ← List.map_append]
  exact hlast

end Schemata
