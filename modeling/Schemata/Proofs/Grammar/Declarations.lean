/-
Reading fields, enums and messages by the grammar.

The body of a message is the one production that contains itself.  Its reader takes a
brace, a message with a body of its own or another member, by the token at the front, so a
tree of the body is read by induction on the tree, and what is read is a tree by induction
on the number of tokens.
-/
import Schemata.Proofs.Grammar.Options

namespace Schemata

open Production

namespace Reads

/-! ### Fields -/

theorem optionalLabel :
    Reads Reader.optionalLabel Grammar.optionalLabel fun t => Grammar.label? t = none :=
  optToken (v := id) rfl rfl fun t ts => by
    rw [Reader.optionalLabel, Grammar.label?_eq]
    cases Grammar.label? t.token <;> rfl

/-- What the first token of a type says about it. -/
def typeKind : Token → Grammar.TypeKind
  | .ident _ => .named
  | _ => .scalar

theorem begins_scalar {first : Token → Prop} (h : ∀ s, first (.keyword (.scalar s))) :
    (token Grammar.scalar?).Begins first := by
  refine begins_token fun t ht => ?_
  unfold Grammar.scalar? at ht
  split at ht
  · exact h _
  · cases ht

theorem typeRef_apply (ts : List Located) : Reader.typeRef ts =
    match typeKind (frontToken ts) with
    | .scalar => (do return .scalar (← Reader.take .fieldType Grammar.scalar?) : Reader TypeRef) ts
    | .named => (do return .named (← Reader.dottedName) : Reader TypeRef) ts := by
  rw [Reader.typeRef, Reader.peek_bind, Grammar.scalar?_eq]
  cases frontToken ts <;> rfl

theorem typeRef : Reads Reader.typeRef Grammar.typeRef fun t => t ≠ .punct .dot := by
  refine choice (fun t => some (typeKind t)) ?_ (by simp)
  intro kind
  have happly : ∀ ts, some (typeKind (frontToken ts)) = some kind →
      typeKind (frontToken ts) = kind := fun ts => Option.some.inj
  cases kind with
  | scalar =>
      refine ⟨.map (begins_scalar fun _ => rfl), _, (take .fieldType).anywhere.last,
        fun ts hts => ?_⟩
      rw [typeRef_apply, happly ts hts]
  | named =>
      refine ⟨.map (begins_dottedName fun _ => rfl), _, dottedName.last, fun ts hts => ?_⟩
      rw [typeRef_apply, happly ts hts]

theorem begins_typeRef {first : Token → Prop} (hscalar : ∀ s, first (.keyword (.scalar s)))
    (hident : ∀ w, first (.ident w)) : Grammar.typeRef.Begins first := by
  refine begins_choice fun kind => ?_
  cases kind with
  | scalar => exact .map (begins_scalar hscalar)
  | named => exact .map (begins_dottedName hident)

theorem begins_identifier {first : Token → Prop} (h : ∀ w, first (.ident w)) :
    Grammar.identifier.Begins first := by
  refine begins_token fun t ht => ?_
  cases t with
  | ident w => exact h w
  | _ => cases ht

theorem begins_field {first : Token → Prop} (hlabel : ∀ l, first (.keyword (.label l)))
    (hscalar : ∀ s, first (.keyword (.scalar s))) (hident : ∀ w, first (.ident w)) :
    Grammar.field.Begins first := by
  unfold Grammar.field
  have htype := begins_typeRef hscalar hident
  refine .map (.lined (.opt_seq (begins_token fun t ht => ?_) (.seq htype)))
  unfold Grammar.label? at ht
  split at ht
  · exact hlabel _
  · cases ht

theorem field : Reads Reader.field Grammar.field Always := by
  unfold Reader.field Grammar.field
  refine lined ?_ fun _ => ?_
  · have htype : Grammar.typeRef.Begins Always :=
      begins_typeRef (fun _ => trivial) fun _ => trivial
    exact .opt_seq (begins_token fun _ _ => trivial) (.seq htype)
  refine optionalLabel.seqBefore (.seq (begins_typeRef (fun _ => rfl) fun _ => rfl)) fun _ => ?_
  refine typeRef.seqBefore (.seq (begins_identifier (by simp))) fun _ => ?_
  refine identifier.seq fun _ => expect.seq fun _ => integer.seq fun _ => ?_
  exact fieldOptions.seqBefore (begins_exactly (by simp)) fun _ => expect.last

/-! ### Enums -/

theorem enumValue : Reads Reader.enumValue Grammar.enumValue Always := by
  unfold Reader.enumValue Grammar.enumValue
  refine lined (.seq (begins_identifier fun _ => trivial)) fun _ => ?_
  refine identifier.seq fun _ => expect.seq fun _ => signedInteger.seq fun _ => ?_
  exact fieldOptions.seqBefore (begins_exactly (by simp)) fun _ => expect.last

theorem begins_enumValue {first : Token → Prop} (h : ∀ w, first (.ident w)) :
    Grammar.enumValue.Begins first := by
  unfold Grammar.enumValue
  exact .map (.lined (.seq (begins_identifier h)))

theorem begins_optionStatement {first : Token → Prop} (h : first (.keyword .option)) :
    Grammar.optionStatement.Begins first := by
  unfold Grammar.optionStatement
  exact .map (.seq (begins_exactly h))

/-- What the first token of an entry says about it. -/
def itemKind? : Token → Option Grammar.ItemKind
  | .keyword .option => some .option
  | .punct .semicolon => some .empty
  | .eof => none
  | _ => some .value

theorem enumItem_apply (name : String) (ts : List Located) : Reader.enumItem name ts =
    match itemKind? (frontToken ts) with
    | some .option => (do Reader.optionStatement; return [] : Reader (List ValueDecl)) ts
    | some .empty => (do Reader.expect (.punct .semicolon); return [] : Reader _) ts
    | some .value => (do return [← Reader.enumValue] : Reader _) ts
    | none => Reader.refuse (.expected (.closeEnum name)) ts := by
  rw [Reader.enumItem, Reader.peek_bind]
  cases frontToken ts with
  | keyword k => cases k <;> rfl
  | punct p => cases p <;> rfl
  | _ => rfl

theorem enumItem (name : String) : Reads (Reader.enumItem name) Grammar.enumItem Always := by
  refine choice itemKind? ?_ fun ts a rest hts => ?_
  · intro kind
    cases kind with
    | option =>
        refine ⟨.map (begins_optionStatement rfl), _, optionStatement.last, fun ts hts => ?_⟩
        rw [enumItem_apply, hts]
    | empty =>
        refine ⟨.map (begins_exactly rfl), _, expect.last, fun ts hts => ?_⟩
        rw [enumItem_apply, hts]
    | value =>
        refine ⟨.map (begins_enumValue fun _ => rfl), _, enumValue.last, fun ts hts => ?_⟩
        rw [enumItem_apply, hts]
  · rw [enumItem_apply, hts]
    exact Reader.refuse_ne_ok

theorem begins_enumItem {first : Token → Prop} (hoption : first (.keyword .option))
    (hempty : first (.punct .semicolon)) (hident : ∀ w, first (.ident w)) :
    Grammar.enumItem.Begins first := by
  refine begins_choice fun kind => ?_
  cases kind with
  | option => exact .map (begins_optionStatement hoption)
  | empty => exact .map (begins_exactly hempty)
  | value => exact .map (begins_enumValue hident)

theorem enum : Reads Reader.enum Grammar.enum Always := by
  unfold Reader.enum Grammar.enum
  refine lined (.seq (begins_exactly trivial)) fun _ => ?_
  refine expect.seq fun _ => identifier.seq fun name => expect.seq fun _ => ?_
  refine (manyUntil (enumItem name) (begins_enumItem rfl rfl fun _ => rfl)).seqBefore
    (begins_exactly rfl) fun _ => expect.last

theorem begins_enum {first : Token → Prop} (h : first (.keyword .enum)) :
    Grammar.enum.Begins first := by
  unfold Grammar.enum
  exact .map (.lined (.seq (begins_exactly h)))

/-! ### Messages -/

theorem messageHead : Reads Reader.messageHead Grammar.messageHead Always := by
  unfold Reader.messageHead Grammar.messageHead
  exact expect.seq fun _ => identifier.seq fun _ => expect.last

theorem begins_messageHead {first : Token → Prop} (h : first (.keyword .message)) :
    Grammar.messageHead.Begins first := by
  unfold Grammar.messageHead
  exact .map (.seq (begins_exactly h))

/-- What the first token of a member that is no message says about it. -/
def memberKind : Token → Grammar.MemberKind
  | .keyword .enum => .enum
  | .keyword .option => .option
  | .punct .semicolon => .empty
  | _ => .field

theorem plainMember_apply (ts : List Located) : Reader.plainMember ts =
    match memberKind (frontToken ts) with
    | .enum => (do return [.enum (← Reader.enum)] : Reader (List Member)) ts
    | .option => (do Reader.optionStatement; return [] : Reader _) ts
    | .empty => (do Reader.expect (.punct .semicolon); return [] : Reader _) ts
    | .field => (do return [.field (← Reader.field)] : Reader _) ts := by
  rw [Reader.plainMember, Reader.peek_bind]
  cases frontToken ts with
  | keyword k => cases k <;> rfl
  | punct p => cases p <;> rfl
  | _ => rfl

theorem plainMember : Reads Reader.plainMember Grammar.plainMember Always := by
  refine choice (fun t => some (memberKind t)) ?_ (by simp)
  intro kind
  have happly : ∀ ts, some (memberKind (frontToken ts)) = some kind →
      memberKind (frontToken ts) = kind := fun ts => Option.some.inj
  cases kind with
  | enum =>
      refine ⟨.map (begins_enum rfl), _, enum.last, fun ts hts => ?_⟩
      rw [plainMember_apply, happly ts hts]
  | option =>
      refine ⟨.map (begins_optionStatement rfl), _, optionStatement.last, fun ts hts => ?_⟩
      rw [plainMember_apply, happly ts hts]
  | empty =>
      refine ⟨.map (begins_exactly rfl), _, expect.last, fun ts hts => ?_⟩
      rw [plainMember_apply, happly ts hts]
  | field =>
      refine ⟨.map (begins_field (fun _ => rfl) (fun _ => rfl) fun _ => rfl), _, field.last,
        fun ts hts => ?_⟩
      rw [plainMember_apply, happly ts hts]

/-! ### Bodies -/

/-- What the body of a message goes on with. -/
inductive BodyKind where
  | close
  | message
  | plain

/-- What the first token of a body says about it. -/
def bodyKind? : Token → Option BodyKind
  | .punct .closeBrace => some .close
  | .keyword .message => some .message
  | .eof => none
  | _ => some .plain

theorem members_apply (name : String) (ts : List Located) : Reader.members name ts =
    match bodyKind? (frontToken ts) with
    | some .close => (do Reader.expect (.punct .closeBrace); return [] : Reader (List Member)) ts
    | some .message => (do
        let (inner, line, body) ← Reader.message
        return .message inner line body :: (← Reader.members name) : Reader _) ts
    | some .plain => (do return (← Reader.plainMember) ++ (← Reader.members name) : Reader _) ts
    | none => Reader.refuse (.expected (.closeMessage name)) ts := by
  refine (congrFun (Reader.members_eq name) ts).trans ?_
  rw [Reader.peek_bind]
  cases frontToken ts with
  | keyword k => cases k <;> rfl
  | punct p => cases p <;> rfl
  | _ => rfl

theorem begins_plainMember : Grammar.plainMember.Begins fun t => bodyKind? t = some .plain := by
  refine begins_choice fun kind => ?_
  cases kind with
  | enum => exact .map (begins_enum rfl)
  | option => exact .map (begins_optionStatement rfl)
  | empty => exact .map (begins_exactly rfl)
  | field => exact .map (begins_field (fun _ => rfl) (fun _ => rfl) fun _ => rfl)

/-- What the body goes on with. -/
def bodyKind : Grammar.Body → BodyKind
  | .close _ => .close
  | .plain _ _ => .plain
  | .message _ _ _ => .message

theorem begins_body (b : Grammar.Body) (rest : List Located) :
    bodyKind? (frontToken (b.tokens ++ rest)) = some (bodyKind b) := by
  cases b with
  | close brace =>
      have hbegins : (punct .closeBrace).Begins fun t => bodyKind? t = some .close :=
        begins_exactly rfl
      exact hbegins.front brace rest
  | plain member body =>
      rw [Grammar.Body.tokens, List.append_assoc]
      exact begins_plainMember.front member _
  | message head inner body =>
      have hbegins : Grammar.messageHead.Begins fun t => bodyKind? t = some .message :=
        begins_messageHead rfl
      rw [Grammar.Body.tokens, List.append_assoc]
      exact hbegins.front head _

/-- A message is its head and what the reader of a body makes of the tokens behind it. -/
theorem message_eq_ok {ts rest : List Located} {name : String} {line : Nat}
    {body : List Member} :
    Reader.message ts = .ok ((name, line, body), rest) ↔
      ∃ head inner, ts = Grammar.messageHead.tokens head ++ inner ∧
        Grammar.messageHead.value head = name ∧
        firstLine (Grammar.messageHead.tokens head) = line ∧
        Reader.members name inner = .ok (body, rest) := by
  have hbegins : Grammar.messageHead.Begins Always := begins_messageHead trivial
  constructor
  · intro h
    obtain ⟨n, m₁, hn, h⟩ := Reader.bind_eq_ok.mp h
    obtain ⟨hline, rfl⟩ := Reader.line_eq_ok.mp hn
    obtain ⟨w, inner, hw, h⟩ := Reader.bind_eq_ok.mp h
    obtain ⟨head, rfl, rfl⟩ := messageHead.sound hw
    obtain ⟨ms, m₂, hms, h⟩ := Reader.bind_eq_ok.mp h
    obtain ⟨h, rfl⟩ := Reader.pure_eq_ok.mp h
    cases h
    exact ⟨head, inner, rfl, rfl, (hbegins.firstLine head inner).symm.trans hline, hms⟩
  · rintro ⟨head, inner, rfl, rfl, rfl, h⟩
    have hline : Reader.line (Grammar.messageHead.tokens head ++ inner) =
        .ok (firstLine (Grammar.messageHead.tokens head),
          Grammar.messageHead.tokens head ++ inner) :=
      Reader.line_eq_ok.mpr ⟨hbegins.firstLine head inner, rfl⟩
    have hhead := messageHead.complete head inner trivial
    rw [Reader.message, Reader.bind_of_ok hline, Reader.bind_of_ok hhead, Reader.bind_of_ok h]
    rfl

/-- Every tree of a body is read, by induction on the tree. -/
theorem members_complete (b : Grammar.Body) : ∀ (name : String) (rest : List Located),
    Reader.members name (b.tokens ++ rest) = .ok (b.members, rest) := by
  induction b with
  | close brace =>
      intro name rest
      rw [members_apply, begins_body]
      exact (expect.last (v := fun _ => [])).complete brace rest trivial
  | plain member body ih =>
      intro name rest
      have hmember := plainMember.complete member (body.tokens ++ rest) trivial
      rw [members_apply, begins_body, Grammar.Body.tokens, List.append_assoc]
      dsimp only [bodyKind]
      rw [Reader.bind_of_ok hmember, Reader.bind_of_ok (ih name rest)]
      rfl
  | message head inner body ihInner ihBody =>
      intro name rest
      have hinner := ihInner (Grammar.messageHead.value head) (body.tokens ++ rest)
      have hmessage := message_eq_ok.mpr ⟨head, _, rfl, rfl, rfl, hinner⟩
      rw [members_apply, begins_body, Grammar.Body.tokens, List.append_assoc, List.append_assoc]
      dsimp only [bodyKind]
      rw [Reader.bind_of_ok hmessage]
      dsimp only
      rw [Reader.bind_of_ok (ihBody name rest)]
      rfl

/-- What is read is a tree, by induction on the number of tokens. -/
theorem members_sound (n : Nat) : ∀ {name : String} {ts rest : List Located} {ms : List Member},
    ts.length = n → Reader.members name ts = .ok (ms, rest) →
      ∃ b : Grammar.Body, ts = b.tokens ++ rest ∧ b.members = ms := by
  induction n using Nat.strongRecOn with
  | ind n ih =>
      intro name ts rest ms hlength h
      rw [members_apply] at h
      cases hkind : bodyKind? (frontToken ts) with
      | none =>
          rw [hkind] at h
          exact absurd h Reader.refuse_ne_ok
      | some kind =>
          rw [hkind] at h
          cases kind with
          | close =>
              obtain ⟨brace, hts, hms⟩ := (expect.last (v := fun _ => [])).sound h
              exact ⟨.close brace, hts, hms⟩
          | message =>
              obtain ⟨⟨inner, line, body⟩, mid, hmessage, h⟩ := Reader.bind_eq_ok.mp h
              obtain ⟨later, last, hlater, h⟩ := Reader.bind_eq_ok.mp h
              obtain ⟨rfl, rfl⟩ := Reader.pure_eq_ok.mp h
              obtain ⟨head, more, rfl, rfl, rfl, hbody⟩ := message_eq_ok.mp hmessage
              have hbegins : Grammar.messageHead.Begins Always := begins_messageHead trivial
              have hpos := hbegins.length_pos head
              rw [List.length_append] at hlength
              obtain ⟨b, rfl, rfl⟩ := ih more.length (by omega) rfl hbody
              rw [List.length_append] at hlength
              obtain ⟨b', rfl, rfl⟩ := ih mid.length (by omega) rfl hlater
              exact ⟨.message head b b', by simp [Grammar.Body.tokens], rfl⟩
          | plain =>
              obtain ⟨now, mid, hnow, h⟩ := Reader.bind_eq_ok.mp h
              obtain ⟨later, last, hlater, h⟩ := Reader.bind_eq_ok.mp h
              obtain ⟨rfl, rfl⟩ := Reader.pure_eq_ok.mp h
              obtain ⟨member, rfl, rfl⟩ := plainMember.sound hnow
              have hpos := begins_plainMember.length_pos member
              rw [List.length_append] at hlength
              obtain ⟨b, rfl, rfl⟩ := ih mid.length (by omega) rfl hlater
              exact ⟨.plain member b, by simp [Grammar.Body.tokens], rfl⟩

/-- The trees of a body are told apart by the first tokens of their parts. -/
theorem body_cancel (b : Grammar.Body) : ∀ {b' : Grammar.Body} {rest rest' : List Located},
    b.tokens ++ rest = b'.tokens ++ rest' → b = b' ∧ rest = rest' := by
  have hkind : ∀ {b b' : Grammar.Body} {rest rest' : List Located},
      b.tokens ++ rest = b'.tokens ++ rest' → some (bodyKind b) = some (bodyKind b') := by
    intro b b' rest rest' h
    rw [← begins_body b rest, ← begins_body b' rest', h]
  induction b with
  | close brace =>
      intro b' rest rest' h
      cases b' with
      | close brace' =>
          have hbrace : (punct .closeBrace).Unambiguous Always := unambiguous_exactly
          obtain ⟨rfl, rfl⟩ := hbrace trivial trivial h
          exact ⟨rfl, rfl⟩
      | plain => cases hkind h
      | message => cases hkind h
  | plain member body ih =>
      intro b' rest rest' h
      cases b' with
      | close => cases hkind h
      | plain member' body' =>
          rw [Grammar.Body.tokens, Grammar.Body.tokens, List.append_assoc, List.append_assoc] at h
          obtain ⟨rfl, hbody⟩ := plainMember.cancel trivial trivial h
          obtain ⟨rfl, rfl⟩ := ih hbody
          exact ⟨rfl, rfl⟩
      | message => cases hkind h
  | message head inner body ihInner ihBody =>
      intro b' rest rest' h
      cases b' with
      | close => cases hkind h
      | plain => cases hkind h
      | message head' inner' body' =>
          simp only [Grammar.Body.tokens, List.append_assoc] at h
          obtain ⟨rfl, hinner⟩ := messageHead.cancel trivial trivial h
          obtain ⟨rfl, hbody⟩ := ihInner hinner
          obtain ⟨rfl, rfl⟩ := ihBody hbody
          exact ⟨rfl, rfl⟩

theorem members (name : String) : Reads (Reader.members name) Grammar.members Always where
  complete b rest _ := members_complete b name rest
  sound h := members_sound _ rfl h
  cancel b _ _ _ _ _ h := body_cancel b h

theorem message : Reads Reader.message Grammar.message Always := by
  unfold Reader.message Grammar.message
  refine lined (.seq (begins_messageHead trivial)) fun _ => ?_
  exact messageHead.seq fun name => (members name).last

theorem begins_message {first : Token → Prop} (h : first (.keyword .message)) :
    Grammar.message.Begins first := by
  unfold Grammar.message
  exact .map (.lined (.seq (begins_messageHead h)))

end Reads

end Schemata
