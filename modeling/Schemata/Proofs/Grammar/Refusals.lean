/-
Refusals of whole texts.

Every reader of the grammar pinpoints what it refuses, so a whole text is refused at the
first token that spoils it: the tokens before it begin a text that is accepted, and with it
they begin none.  The line of the error is the line of that token.
-/
import Schemata.Loading
import Schemata.Proofs.Grammar.Deviation
import Schemata.Proofs.Grammar.Files

namespace Schemata

open Production Reader

namespace Reader.Pinpoints

/-! ### Names and numbers -/

theorem identifier : Pinpoints Reader.identifier Grammar.identifier := by
  rw [Reader.identifier, Grammar.ident?_eq]
  exact take _ (t := .ident "") trivial rfl

theorem string : Pinpoints Reader.string Grammar.string := by
  rw [Reader.string, Grammar.str?_eq]
  exact take _ (t := .str "") trivial rfl

section

variable {α : Type} (wanted : Expected) {segment? : Token → Option α} {t : Token}

theorem dotTail (ht : t.IsLexeme) (hsegment : (segment? t).isSome) :
    Pinpoints (Reader.dotTail wanted segment?) (Grammar.dotTail segment?) := by
  have hq : Pinpoints (do Reader.expect (.punct .dot); Reader.take wanted segment?)
      (((Production.punct .dot).seq (token segment?)).map Prod.snd) :=
    punct.seq Reads.expect fun _ => take wanted ht hsegment
  exact many (v := id) (· = .punct .dot) hq (Reads.dotted_segment wanted)
    (.map (.seq (begins_exactly rfl))) (fun _ => Reads.dotTail_of_dot wanted)
    fun _ => Reads.dotTail_of_not_dot wanted

theorem dotted (ht : t.IsLexeme) (hsegment : (segment? t).isSome) :
    Pinpoints (Reader.dotted wanted segment?) (Grammar.dotted segment?) := by
  unfold Reader.dotted Grammar.dotted
  exact (take wanted ht hsegment).seq (Reads.take wanted) fun _ => (dotTail wanted ht hsegment).last

end

theorem dottedName : Pinpoints Reader.dottedName Grammar.dottedName := by
  rw [Reader.dottedName, Grammar.ident?_eq]
  exact dotted _ (t := .ident "") trivial rfl

/-- A number that does not fit is refused like a token that is none. -/
theorem integer {negative : Bool} :
    Pinpoints (Reader.integer negative) (token (Grammar.int32? negative)) := by
  have hzero : (Grammar.int32? negative (.int 0)).isSome := by cases negative <;> rfl
  refine ofToken (begun_token (t := .int 0) (Int64.le_refl 0) hzero) rfl fun t => ?_
  unfold Reader.integer
  dsimp only
  split
  · rename_i n _
    cases Reader.number? (if negative then -n else n) with
    | some value => exact .inl ⟨value, fun _ => rfl⟩
    | none =>
        dsimp only
        split
        · exact .inr ⟨_, fun _ => rfl⟩
        · exact .inr ⟨_, fun _ => rfl⟩
  · exact .inr ⟨_, fun _ => rfl⟩

theorem signedInteger : Pinpoints Reader.signedInteger Grammar.signedInteger := by
  refine choice (fun t => some (decide (t = .punct .minus))) .unterminated false ?_ (by simp)
  intro negative
  cases negative with
  | true =>
      refine ⟨_, punct.seq Reads.expect fun _ => integer, fun ts hts => ?_⟩
      exact Reader.accept_of_front _ (by simp) (by simpa using hts)
  | false =>
      refine ⟨_, integer, fun ts hts => ?_⟩
      exact Reader.accept_of_not_front _ (by simpa using hts)

/-! ### Options -/

theorem segment : Pinpoints (Reader.take .optionName Grammar.segment?) (token Grammar.segment?) :=
  take _ (t := .ident "") trivial rfl

theorem optionHead : Pinpoints Reader.optionHead Grammar.optionHead := by
  rw [Reader.optionHead, Grammar.segment?_eq]
  refine choice (fun t => some (if t = .punct .openParen then .custom else .plain)) .unterminated
    .plain ?_ (by simp)
  intro start
  cases start with
  | plain =>
      refine ⟨_, segment, fun ts hts => ?_⟩
      exact Reader.accept_of_not_front _ (by simpa using hts)
  | custom =>
      have hname : Pinpoints (Reader.dotted .optionName Grammar.segment?)
          (Grammar.dotted Grammar.segment?) := dotted _ (t := .ident "") trivial rfl
      refine ⟨_, punct.seq Reads.expect fun _ =>
        hname.seq (Reads.dotted .optionName) fun _ => punct, fun ts hts => ?_⟩
      exact Reader.accept_of_front _ (by simp) (by simpa using hts)

theorem optionName : Pinpoints Reader.optionName Grammar.optionName := by
  rw [Reader.optionName, Grammar.optionName, Grammar.segment?_eq]
  exact optionHead.seq Reads.optionHead fun _ =>
    (dotTail .optionName (t := .ident "") trivial rfl).last

theorem constant : Pinpoints Reader.constant Grammar.constant := by
  refine choice (fun t => some (Reads.constantKind t)) .unterminated .name ?_ (by simp)
  intro kind
  have happly : ∀ ts, some (Reads.constantKind (frontToken ts)) = some kind →
      Reads.constantKind (frontToken ts) = kind := fun ts => Option.some.inj
  cases kind with
  | negative =>
      refine ⟨_, punct.seq Reads.expect fun _ =>
        take .signedNumber (t := .float "") trivial rfl, fun ts hts => ?_⟩
      rw [Reads.constant_apply, happly ts hts]
  | name =>
      refine ⟨_, dottedName.last, fun ts hts => ?_⟩
      rw [Reads.constant_apply, happly ts hts]
  | literal =>
      refine ⟨_, take .optionValue (t := .str "") trivial rfl, fun ts hts => ?_⟩
      rw [Reads.constant_apply, happly ts hts]

theorem assignment : Pinpoints Reader.assignment Grammar.assignment := by
  unfold Reader.assignment Grammar.assignment
  exact optionName.seq Reads.optionName fun _ => punct.seq Reads.expect fun _ => constant

theorem optionStatement : Pinpoints Reader.optionStatement Grammar.optionStatement := by
  unfold Reader.optionStatement Grammar.optionStatement
  exact keyword.seq Reads.expect fun _ => assignment.seq Reads.assignment fun _ => punct

theorem closing : Pinpoints Reads.closing
    ((Grammar.moreAssignments.seq (Production.punct .closeBracket)).map fun _ => ()) := by
  have hq : Pinpoints (do Reader.expect (.punct .comma); Reader.assignment)
      (((Production.punct .comma).seq Grammar.assignment).map Prod.snd) :=
    punct.seq Reads.expect fun _ => assignment
  have hp : Pinpoints Reads.closingBracket (Production.punct .closeBracket) :=
    take _ (t := .punct .closeBracket) trivial rfl
  exact manyThen (· = .punct .comma) hq Reads.comma_assignment
    (.map (.seq (begins_exactly rfl))) hp (fun _ => Reads.closing_of_comma)
    fun _ => Reads.closing_of_not_comma

theorem assignments : Pinpoints Reader.assignments Grammar.assignments := by
  rw [Reads.assignments_eq, Grammar.assignments]
  exact assignment.seq Reads.assignment fun _ => closing

theorem fieldOptions : Pinpoints Reader.fieldOptions Grammar.fieldOptions := by
  refine opt (v := fun _ => ()) (· = .punct .openBracket)
    (punct.seq Reads.expect fun _ => assignments) ?_ ?_
  · exact fun ts hts => Reader.accept_of_front _ (by simp) hts
  · exact fun ts hts => Reader.accept_of_not_front _ hts

/-! ### Fields and enums -/

theorem optionalLabel : Pinpoints Reader.optionalLabel Grammar.optionalLabel :=
  optToken (v := id) (t := .keyword (.label .optional)) trivial rfl rfl rfl fun t ts => by
    rw [Reader.optionalLabel, Grammar.label?_eq]
    cases Grammar.label? t.token <;> rfl

theorem typeRef : Pinpoints Reader.typeRef Grammar.typeRef := by
  refine choice (fun t => some (Reads.typeKind t)) .unterminated .named ?_ (by simp)
  intro kind
  have happly : ∀ ts, some (Reads.typeKind (frontToken ts)) = some kind →
      Reads.typeKind (frontToken ts) = kind := fun ts => Option.some.inj
  cases kind with
  | scalar =>
      have htype : Pinpoints (Reader.take .fieldType Grammar.scalar?) (token Grammar.scalar?) :=
        take _ (t := .keyword (.scalar .bool)) trivial rfl
      refine ⟨_, htype.last, fun ts hts => ?_⟩
      rw [Reads.typeRef_apply, happly ts hts]
  | named =>
      refine ⟨_, dottedName.last, fun ts hts => ?_⟩
      rw [Reads.typeRef_apply, happly ts hts]

theorem field : Pinpoints Reader.field Grammar.field := by
  unfold Reader.field Grammar.field
  refine lined fun _ => optionalLabel.seq Reads.optionalLabel fun _ => ?_
  refine typeRef.seq Reads.typeRef fun _ => identifier.seq Reads.identifier fun _ => ?_
  refine punct.seq Reads.expect fun _ => integer.seq Reads.integer fun _ => ?_
  exact fieldOptions.seq Reads.fieldOptions fun _ => punct.last

theorem enumValue : Pinpoints Reader.enumValue Grammar.enumValue := by
  unfold Reader.enumValue Grammar.enumValue
  refine lined fun _ => identifier.seq Reads.identifier fun _ => ?_
  refine punct.seq Reads.expect fun _ => signedInteger.seq Reads.signedInteger fun _ => ?_
  exact fieldOptions.seq Reads.fieldOptions fun _ => punct.last

theorem enumItem (name : String) : Pinpoints (Reader.enumItem name) Grammar.enumItem := by
  refine choice Reads.itemKind? (.expected (.closeEnum name)) .empty ?_ fun ts hts => ?_
  · intro kind
    cases kind with
    | option =>
        refine ⟨_, optionStatement.last, fun ts hts => ?_⟩
        rw [Reads.enumItem_apply, hts]
    | empty =>
        refine ⟨_, punct.last, fun ts hts => ?_⟩
        rw [Reads.enumItem_apply, hts]
    | value =>
        refine ⟨_, enumValue.last, fun ts hts => ?_⟩
        rw [Reads.enumItem_apply, hts]
  · rw [Reads.enumItem_apply, hts]

theorem enum : Pinpoints Reader.enum Grammar.enum := by
  unfold Reader.enum Grammar.enum
  refine lined fun _ => keyword.seq Reads.expect fun _ => ?_
  refine identifier.seq Reads.identifier fun name => punct.seq Reads.expect fun _ => ?_
  have hbegins : Grammar.enumItem.Begins fun t => isCloseBrace t = false :=
    Reads.begins_enumItem rfl rfl fun _ => rfl
  exact (manyUntil (enumItem name) (Reads.enumItem name) hbegins).seq
    (Reads.manyUntil (Reads.enumItem name) hbegins) fun _ => punct.last

/-! ### Messages -/

theorem messageHead : Pinpoints Reader.messageHead Grammar.messageHead := by
  unfold Reader.messageHead Grammar.messageHead
  exact keyword.seq Reads.expect fun _ => identifier.seq Reads.identifier fun _ => punct.last

theorem plainMember : Pinpoints Reader.plainMember Grammar.plainMember := by
  refine choice (fun t => some (Reads.memberKind t)) .unterminated .empty ?_ (by simp)
  intro kind
  have happly : ∀ ts, some (Reads.memberKind (frontToken ts)) = some kind →
      Reads.memberKind (frontToken ts) = kind := fun ts => Option.some.inj
  cases kind with
  | enum =>
      refine ⟨_, enum.last, fun ts hts => ?_⟩
      rw [Reads.plainMember_apply, happly ts hts]
  | option =>
      refine ⟨_, optionStatement.last, fun ts hts => ?_⟩
      rw [Reads.plainMember_apply, happly ts hts]
  | empty =>
      refine ⟨_, punct.last, fun ts hts => ?_⟩
      rw [Reads.plainMember_apply, happly ts hts]
  | field =>
      refine ⟨_, field.last, fun ts hts => ?_⟩
      rw [Reads.plainMember_apply, happly ts hts]

theorem begun_close {used : List Located} (h : (Production.punct .closeBrace).Begun used) :
    Grammar.members.Begun used := by
  obtain ⟨brace, tail, hd, htail⟩ := h
  exact ⟨.close brace, tail, hd, htail⟩

theorem begun_plain {used : List Located}
    (h : (Grammar.plainMember.seq Grammar.members).Begun used) :
    Grammar.members.Begun used := by
  obtain ⟨⟨member, rest⟩, tail, hd, htail⟩ := h
  exact ⟨.plain member rest, tail, hd, htail⟩

theorem begun_nested {used : List Located} (h : (Grammar.message.seq Grammar.members).Begun used) :
    Grammar.members.Begun used := by
  obtain ⟨⟨⟨head, inner⟩, rest⟩, tail, hd, htail⟩ := h
  exact ⟨.message head inner rest, tail, (List.append_assoc ..).symm.trans hd, htail⟩

/-- A message is pinpointed if the bodies on fewer tokens are. -/
theorem message_ends {ts : List Located} (hinhabited : Grammar.members.Begun [])
    (hmembers : ∀ name mid, mid.length < ts.length →
      (Reader.members name).PinpointsAt Grammar.members mid) :
    Reader.message.PinpointsAt Grammar.message ts := by
  have hbody : ∀ name mid, Reader.messageHead ts = .ok (name, mid) →
      (Reader.members name >>= fun body => pure (name, frontLine ts, body)).PinpointsAt
        Grammar.members mid := by
    intro name mid hmid
    have hshorter := takes_messageHead.shorter hmid
    exact (hmembers name mid (by omega)).last
  have hall := (messageHead.ends ts).seq Reads.messageHead hinhabited hbody
  refine (hall.ofFront (p := Reader.message) fun us hus => ?_).mono fun _ => Begun.lined
  rw [← frontLine_congr hus]
  rfl

/-- The reader of bodies stops where it should, by induction on the number of tokens: a body
inside it and what follows a member have fewer. -/
theorem members_ends (n : Nat) : ∀ (name : String) (ts : List Located), ts.length = n →
    (Reader.members name).PinpointsAt Grammar.members ts := by
  induction n using Nat.strongRecOn with
  | ind n ih =>
      intro name ts hlength
      have hclose := punct (c := .closeBrace)
      have hinhabited : Grammar.members.Begun [] := begun_close hclose.inhabited
      cases hkind : Reads.bodyKind? (frontToken ts) with
      | none =>
          refine (pinpointsAt_refuse (.expected (.closeMessage name)) hinhabited).ofFront
            fun us hus => ?_
          rw [Reads.members_apply, frontToken_congr hus, hkind]
      | some kind =>
          cases kind with
          | close =>
              have hends := (hclose.last (v := fun _ => ([] : List Member))).ends ts
              refine (hends.mono fun _ => begun_close).ofFront fun us hus => ?_
              rw [Reads.members_apply, frontToken_congr hus, hkind]
          | plain =>
              have hlater : ∀ ms mid, Reader.plainMember ts = .ok (ms, mid) →
                  (Reader.members name >>= fun later => pure (ms ++ later)).PinpointsAt
                    Grammar.members mid := by
                intro ms mid hmid
                have hshorter := takes_plainMember.shorter hmid
                exact (ih mid.length (by omega) name mid rfl).last
              refine (((plainMember.ends ts).seq Reads.plainMember hinhabited hlater).mono
                fun _ => begun_plain).ofFront fun us hus => ?_
              rw [Reads.members_apply, frontToken_congr hus, hkind]
          | message =>
              have hmessage := message_ends hinhabited fun inner mid hmid =>
                ih mid.length (hlength ▸ hmid) inner mid rfl
              have hlater : ∀ m mid, Reader.message ts = .ok (m, mid) →
                  (Reader.members name >>= fun later =>
                    pure (.message m.1 m.2.1 m.2.2 :: later)).PinpointsAt Grammar.members mid := by
                intro m mid hmid
                have hshorter := takes_message.shorter hmid
                exact (ih mid.length (by omega) name mid rfl).last
              refine ((hmessage.seq Reads.message hinhabited hlater).mono
                fun _ => begun_nested).ofFront fun us hus => ?_
              rw [Reads.members_apply, frontToken_congr hus, hkind]

theorem members (name : String) : Pinpoints (Reader.members name) Grammar.members :=
  ⟨begun_close punct.inhabited, fun ts => members_ends _ name ts rfl⟩

theorem message : Pinpoints Reader.message Grammar.message := by
  have hmembers := (members "").inhabited
  refine ⟨Begun.lined (messageHead.inhabited.seq hmembers), fun ts => ?_⟩
  exact message_ends hmembers fun name mid _ => (members name).ends mid

/-! ### Statements -/

theorem importKind : Pinpoints Reader.importKind Grammar.importKind := by
  refine optToken (v := fun k => k.getD ImportKind.plain) (t := .ident "weak") trivial rfl rfl rfl
    fun t ts => ?_
  rw [Reader.importKind]
  unfold Grammar.importWord?
  split <;> simp_all

theorem importStatement : Pinpoints Reader.importStatement Grammar.importStatement := by
  unfold Reader.importStatement Grammar.importStatement
  refine lined fun _ => keyword.seq Reads.expect fun _ => ?_
  refine importKind.seq Reads.importKind fun _ => string.seq Reads.string fun _ => punct.last

theorem packageStatement : Pinpoints Reader.packageStatement Grammar.packageStatement := by
  unfold Reader.packageStatement Grammar.packageStatement
  refine lined fun _ => keyword.seq Reads.expect fun _ => ?_
  exact dottedName.seq Reads.dottedName fun _ => punct.last

theorem statement : Pinpoints Reader.statement Grammar.statement := by
  refine choice Reads.statementKind? (.expected .declaration) .empty ?_ fun ts hts => ?_
  · intro kind
    cases kind with
    | importing =>
        refine ⟨_, importStatement.last, fun ts hts => ?_⟩
        rw [Reads.statement_apply, hts]
    | package =>
        refine ⟨_, packageStatement.last, fun ts hts => ?_⟩
        rw [Reads.statement_apply, hts]
    | message =>
        refine ⟨_, message.last, fun ts hts => ?_⟩
        rw [Reads.statement_apply, hts]
    | enum =>
        refine ⟨_, enum.last, fun ts hts => ?_⟩
        rw [Reads.statement_apply, hts]
    | option =>
        refine ⟨_, optionStatement.last, fun ts hts => ?_⟩
        rw [Reads.statement_apply, hts]
    | empty =>
        refine ⟨_, punct.last, fun ts hts => ?_⟩
        rw [Reads.statement_apply, hts]
  · rw [Reads.statement_apply, hts]

theorem statements : Pinpoints (Reader.manyUntil isEof Reader.statement takes_statement)
    Grammar.statements :=
  manyUntil statement Reads.statement Reads.statement_goes_on

theorem schema : Pinpoints Reader.schema Grammar.schema := by
  unfold Reader.schema Grammar.schema
  exact keyword.seq Reads.expect fun _ => punct.seq Reads.expect fun _ =>
    string.seq Reads.string fun _ => punct.seq Reads.expect fun _ => statements.last

end Reader.Pinpoints

/-! ### Whole lists -/

/-- No token of a tree is the end of input, since the reader that takes the tree's tokens
takes no end of input. -/
theorem ne_eof_of_mem_schema {d : Grammar.schema.Tree} {t : Located}
    (ht : t ∈ Grammar.schema.tokens d) : t.token ≠ .eof := by
  have hread := Reads.schema.complete d [] rfl
  obtain ⟨used, hused, -, hlive⟩ := takes_schema hread
  obtain rfl : Grammar.schema.tokens d = used := List.append_cancel_right hused
  exact hlive t ht

theorem read_concat {body : List Located} {last : Located} (hlast : last.token = .eof) :
    Schema.read (body ++ [last]) = (Reader.schema (body ++ [last])).map Prod.fst := by
  rw [Schema.read, List.getLast?_concat]
  exact if_pos hlast

/-- The tokens of a tree are accepted with the end of input behind them. -/
theorem read_tokens (d : Grammar.schema.Tree) {last : Located} (hlast : last.token = .eof) :
    Schema.read (Grammar.schema.tokens d ++ [last]) = .ok (Grammar.schema.value d) := by
  have hread := Reads.schema.complete d [last] (by rw [frontToken, hlast]; rfl)
  rw [read_concat hlast, hread]
  rfl

/-- What begins a text begins one of a form that lexing yields. -/
theorem exists_read_of_begun {used : List Located} (hused : ∀ t ∈ used, t.token.IsLexeme)
    (h : Grammar.schema.Begun used) :
    ∃ more s, Lexed (used ++ more) ∧ Schema.read (used ++ more) = .ok s := by
  obtain ⟨d, tail, hd, htail⟩ := h
  refine ⟨tail ++ [⟨.eof, .start⟩], Grammar.schema.value d, ?_, ?_⟩
  · refine ⟨used ++ tail, ⟨.eof, .start⟩, (List.append_assoc ..).symm, rfl, fun t ht => ?_⟩
    exact (List.mem_append.mp ht).elim (hused t) (htail t)
  · rw [← List.append_assoc, ← hd]
    exact read_tokens d rfl

/-- A list the reader of texts refuses is not accepted, whatever it ends with. -/
theorem read_ne_ok {ts : List Located} {r : Refusal} (h : Reader.schema ts = .error r)
    (s : Schema) : Schema.read ts ≠ .ok s := by
  rw [Schema.read, h]
  split
  · simp
  · split <;> simp [Except.map]

/-- A list of a text is refused at one of its tokens: those before it begin a text, and with
it nothing is accepted. -/
theorem read_deviates {ts : List Located} {r : Refusal} (hts : Lexed ts)
    (h : Schema.read ts = .error r) :
    ∃ used t rest, ts = used ++ t :: rest ∧ r.line = t.place.line ∧
      (∃ more s, Lexed (used ++ more) ∧ Schema.read (used ++ more) = .ok s) ∧
      ∀ more s, Schema.read (used ++ t :: more) ≠ .ok s := by
  obtain ⟨body, last, rfl, hlast, hbody⟩ := hts
  rw [read_concat hlast] at h
  have hschema : Reader.schema (body ++ [last]) = .error r := by
    cases hs : Reader.schema (body ++ [last]) with
    | ok v =>
        rw [hs] at h
        cases h
    | error r' =>
        rw [hs] at h
        cases h
        rfl
  obtain ⟨used, hsplit, hprompt, hviable⟩ := Pinpoints.schema.ends (body ++ [last])
  rw [hschema] at hsplit hprompt
  obtain ⟨d, tail, hd, htail⟩ := hviable r hschema
  have hlive : ∀ t ∈ used, t.token ≠ .eof := fun t ht =>
    ne_eof_of_mem_schema (d := d) (hd ▸ List.mem_append_left tail ht)
  -- The end of input is not taken, so there is a token left and those taken are the text's.
  obtain ⟨more, rfl, hrest⟩ : ∃ more, body = used ++ more ∧ r.rest = more ++ [last] := by
    rcases List.append_eq_append_iff.mp hsplit with ⟨more, rfl, hlast'⟩ | h
    · cases more with
      | nil => exact ⟨[], by simp, hlast'.symm⟩
      | cons t more =>
          obtain ⟨rfl, -⟩ := List.cons.inj hlast'
          exact absurd hlast (hlive last (by simp))
    · exact h
  obtain ⟨t, rest, hcons⟩ : ∃ t rest, more ++ [last] = t :: rest :=
    List.exists_cons_of_ne_nil (by simp)
  have hused : ∀ t ∈ used, t.token.IsLexeme := fun t ht => hbody t (List.mem_append_left more ht)
  refine ⟨used, t, rest, ?_, ?_, exists_read_of_begun hused ⟨d, tail, hd, htail⟩, ?_⟩
  · rw [List.append_assoc, hcons]
  · rw [Refusal.line, hrest, hcons]
    rfl
  · intro other s
    refine read_ne_ok (hprompt (t :: other) ?_) s
    show some t = r.rest.head?
    rw [hrest, hcons]
    rfl

/-- **A text is refused where it first goes wrong.**  If the tokens of a text are refused,
the line of the error is the line of one of them; those before it can be completed to the
tokens of a text that is accepted, and those up to and including it begin no list that is. -/
theorem schemaOf_refuses_first_deviation {name : String} {ts : List Located} {e : Error}
    (hts : Lexed ts) (h : schemaOf name ts = .error e) :
    ∃ k t, ts[k]? = some t ∧ e.line = t.place.line ∧
      (∃ more s, Lexed (ts.take k ++ more) ∧ schemaOf name (ts.take k ++ more) = .ok s) ∧
      ∀ more s, schemaOf name (ts.take (k + 1) ++ more) ≠ .ok s := by
  cases hread : Schema.read ts with
  | ok s =>
      rw [schemaOf, hread] at h
      cases h
  | error r =>
      rw [schemaOf, hread] at h
      cases h
      obtain ⟨used, t, rest, rfl, hline, ⟨more, s, hlexed, hok⟩, hspoils⟩ := read_deviates hts hread
      have hbefore : (used ++ t :: rest).take used.length = used := List.take_left
      have hwith : (used ++ t :: rest).take (used.length + 1) = used ++ [t] := by
        rw [List.append_cons]
        exact List.take_left' (by simp)
      refine ⟨used.length, t, by simp, hline, ⟨more, s, ?_, ?_⟩, ?_⟩
      · rwa [hbefore]
      · rw [hbefore, schemaOf, hok]
        rfl
      · intro other s' hs'
        rw [hwith, List.append_assoc, List.singleton_append] at hs'
        exact hspoils other s' (Fallible.mapError_eq_ok.mp hs')

/-- The tokens of a text, one on each line, with an enum value below the range of its number. -/
def tooSmall : List Located :=
  [.keyword .edition, .punct .equals, .str "proto3", .punct .semicolon,
    .keyword .enum, .ident "E", .punct .openBrace,
    .ident "A", .punct .equals, .punct .minus, .int 0x80000001, .punct .semicolon,
    .punct .closeBrace, .eof].mapIdx fun i t => ⟨t, ⟨i + 1, 1⟩⟩

/-- The text is refused at the number behind the sign. -/
theorem tooSmall_refuses_first_deviation :
    let e : Error := .grammar "t.proto" 11 "integer -2147483649 out of range"
    Lexed tooSmall ∧ schemaOf "t.proto" tooSmall = .error e ∧
    ∃ k t, tooSmall[k]? = some t ∧ e.line = t.place.line ∧
      (∃ more s, Lexed (tooSmall.take k ++ more) ∧
        schemaOf "t.proto" (tooSmall.take k ++ more) = .ok s) ∧
      ∀ more s, schemaOf "t.proto" (tooSmall.take (k + 1) ++ more) ≠ .ok s := by
  intro e
  have hlexed : Lexed tooSmall := by
    refine ⟨tooSmall.dropLast, ⟨.eof, ⟨14, 1⟩⟩, by decide, rfl, ?_⟩
    simp [tooSmall, Token.IsLexeme]
  have hrefused : (match schemaOf "t.proto" tooSmall with
      | .error e => some e
      | .ok _ => none) = some e := by decide +kernel
  have herror : schemaOf "t.proto" tooSmall = .error e := by
    split at hrefused
    · rename_i heq
      rw [heq, Option.some.inj hrefused]
    · cases hrefused
  exact ⟨hlexed, herror, schemaOf_refuses_first_deviation hlexed herror⟩

end Schemata
