/-
Up to a part of a text.

Tokens lead from one reader to another if the first, having read them, does what the second
does: where the second refuses what comes next, the first refuses it too, and what begins a tree
for the second begins one for the first.  A derivation tree gives such tokens for each of its
parts.  So whether a number can stand where a tree has one is a question about that number
alone, whatever stands behind it.
-/
import Schemata.Proofs.Grammar.Parts
import Schemata.Proofs.Grammar.Refusals

namespace Schemata

open Production

variable {α β γ δ : Type}

/-- The tokens lead from the reader `p` of `A` to the reader `q` of `B`, where a token follows
that `starts` holds of. -/
structure Leads (p : Reader α) (A : Production β) (before : List Located) (q : Reader γ)
    (B : Production δ) (starts : Token → Prop) : Prop where
  /-- What the second refuses, the first refuses. -/
  refuses : ∀ {ts r}, starts (frontToken ts) → q ts = .error r → p (before ++ ts) = .error r
  /-- What begins a tree for the second begins one for the first. -/
  begun : ∀ {used}, B.Begun used → A.Begun (before ++ used)

namespace Leads

variable {ε ζ η : Type} {p : Reader α} {A : Production β} {q : Reader γ} {B : Production δ}
  {o : Reader ε} {C : Production ζ} {D : Production η} {before between : List Located}
  {starts starts' stops : Token → Prop}

theorem refl : Leads p A [] p A starts := ⟨fun _ => id, id⟩

/-- Tokens that lead on from where others lead to. -/
theorem trans (h : Leads p A before q B starts) (h' : Leads q B between o C starts')
    (hfront : ∀ ts, starts' (frontToken ts) → starts (frontToken (between ++ ts))) :
    Leads p A (before ++ between) o C starts' where
  refuses hts ho := by
    rw [List.append_assoc]
    exact h.refuses (hfront _ hts) (h'.refuses hts ho)
  begun hC := by
    rw [List.append_assoc]
    exact h.begun (h'.begun hC)

/-- The same where they lead on at once. -/
theorem into (h : Leads p A before q B starts) (h' : Leads q B [] o C starts')
    (hle : ∀ t, starts' t → starts t) : Leads p A before o C starts' where
  refuses hts ho := h.refuses (hle _ hts) (h'.refuses hts ho)
  begun hC := h.begun (h'.begun hC)

/-- What the front token tells the reader to begin with. -/
theorem first {f : γ → Reader α}
    (hp : ∀ ts, starts (frontToken ts) → p ts = (q >>= f) ts)
    (hle : ∀ used, B.Begun used → A.Begun used) : Leads p A [] q B starts where
  refuses hts hq := (hp _ hts).trans (Reader.bind_of_error hq)
  begun hB := hle _ hB

/-- What the first part leads to, it leads to with another part behind it. -/
theorem inFront {f : α → Reader ε} (h : Leads p A before q B starts)
    (hD : D.Begun []) : Leads (p >>= f) (A.seq D) before q B starts where
  refuses hts hq := Reader.bind_of_error (h.refuses hts hq)
  begun hB := (h.begun hB).seq hD

/-- Behind a tree of the first part the second is read. -/
theorem behind {r : Reader η} {f : η → Reader α} (hread : Reads r D stops) (d : D.Tree)
    (h : Leads (f (D.value d)) B between o C starts)
    (hfront : ∀ ts, starts (frontToken ts) → stops (frontToken (between ++ ts))) :
    Leads (r >>= f) (D.seq B) (D.tokens d ++ between) o C starts where
  refuses hts ho := by
    rw [List.append_assoc, Reader.bind_of_ok (hread.complete d _ (hfront _ hts))]
    exact h.refuses hts ho
  begun hC := by
    rw [List.append_assoc]
    exact .behind d (h.begun hC)

/-- The same where the first part knows its end by itself. -/
theorem next {r : Reader η} {f : η → Reader α} (hread : Reads r D Always) (d : D.Tree)
    (h : Leads (f (D.value d)) B between o C starts) :
    Leads (r >>= f) (D.seq B) (D.tokens d ++ between) o C starts :=
  h.behind hread d fun _ _ => trivial

/-- The same where the front token tells that the first part is there. -/
theorem behindFront {r : Reader η} {f : η → Reader α} (hbegins : D.Begins stops)
    (hp : ∀ ts, stops (frontToken ts) → p ts = (r >>= f) ts) (hread : Reads r D Always)
    (d : D.Tree) (h : Leads (f (D.value d)) B between o C starts)
    (hle : ∀ used, (D.seq B).Begun used → A.Begun used) :
    Leads p A (D.tokens d ++ between) o C starts where
  refuses hts ho := by
    rw [List.append_assoc, hp _ (hbegins.front d _),
      Reader.bind_of_ok (hread.complete d _ trivial)]
    exact h.refuses hts ho
  begun hC := by
    rw [List.append_assoc]
    exact hle _ (.behind d (h.begun hC))

theorem map {w : β → η} (h : Leads p A before q B starts) : Leads p (A.map w) before q B starts :=
  ⟨h.refuses, h.begun⟩

/-- Making a value of another one takes no token. -/
theorem mapped {v : α → γ} (h : Leads p A before o C starts) :
    Leads (p >>= fun a => pure (v a)) A before o C starts where
  refuses hts ho := Reader.bind_of_error (h.refuses hts ho)
  begun hC := h.begun hC

/-- The line of the front token is read off without taking it. -/
theorem lined {f : Nat → Reader α} {w : Nat × δ → β} (h : ∀ n, Leads (f n) B before o C starts) :
    Leads (Reader.line >>= f) (B.lined.map w) before o C starts where
  refuses hts ho := (h _).refuses hts ho
  begun hC := (h 0).begun hC

end Leads

namespace Grammar

open Reader.Pinpoints (begun_plain begun_nested)

/-! ### Lists and bodies -/

/-- What stands before one of several trees in a row leads to the reader of one. -/
theorem leads_of_mem_partsOf {ends : Token → Bool} {item : Reader (List α)}
    {progress : item.Takes 1} {A : Production (List α)} (hread : Reads item A Always)
    (hbegins : A.Begins fun t => ends t = false) {ds : List A.Tree} {x : Part A}
    (h : x ∈ partsOf A ds) :
    Leads (Reader.manyUntil ends item progress) (A.many.map List.flatten) x.before item A
      fun t => ends t = false := by
  induction ds generalizing x with
  | nil => cases h
  | cons d ds ih =>
      rcases List.mem_cons.mp h with rfl | h
      · exact .first (fun _ => Reader.manyUntil_of_more) fun _ hused =>
          .many (hused.seq (begun_many A))
      · obtain ⟨y, hy, rfl⟩ := List.mem_map.mp h
        exact .behindFront (B := A.many.map List.flatten) hbegins
          (fun _ => Reader.manyUntil_of_more) hread d (ih hy).mapped fun _ => Begun.many (A := A)

/-- The head of a message leads to the reader of its body. -/
theorem leads_messageHead (head : messageHead.Tree) :
    Leads Reader.message message (messageHead.tokens head)
      (Reader.members (messageHead.value head)) members Always := by
  unfold Reader.message message
  rw [← List.append_nil (messageHead.tokens head)]
  exact .lined fun _ => .next Reads.messageHead head Leads.refl.mapped

/-- What stands before a member of a body leads to the reader of members, by induction on the
body. -/
theorem leads_of_mem_parts {b : Body} {x : Part plainMember} (h : x ∈ b.parts) (name : String) :
    Leads (Reader.members name) members x.before Reader.plainMember plainMember
      fun t => Reads.bodyKind? t = some .plain := by
  have hinhabited : members.Begun [] := (Reader.Pinpoints.members "").inhabited
  have hplain : ∀ (name : String) (ts : List Located),
      Reads.bodyKind? (frontToken ts) = some .plain → Reader.members name ts =
        (do return (← Reader.plainMember) ++ (← Reader.members name) : Reader _) ts := by
    intro name ts hts
    rw [Reads.members_apply, hts]
  have hmessage : ∀ (name : String) (ts : List Located),
      Reads.bodyKind? (frontToken ts) = some .message → Reader.members name ts =
        (do
          let m ← Reader.message
          return .message m.1 m.2.1 m.2.2 :: (← Reader.members name) : Reader _) ts := by
    intro name ts hts
    rw [Reads.members_apply, hts]
  have hbegins : messageHead.Begins fun t => Reads.bodyKind? t = some .message :=
    Reads.begins_messageHead rfl
  induction b generalizing x name with
  | close brace => cases h
  | plain member rest ih =>
      rcases List.mem_cons.mp h with rfl | h
      · exact .first (hplain name) fun _ hused => begun_plain (hused.seq hinhabited)
      · obtain ⟨y, hy, rfl⟩ := List.mem_map.mp h
        exact .behindFront Reads.begins_plainMember (hplain name) Reads.plainMember member
          (ih hy name).mapped fun _ => begun_plain
  | message head inner rest ihInner ihRest =>
      rcases List.mem_append.mp h with h | h
      · obtain ⟨y, hy, rfl⟩ := List.mem_map.mp h
        have hinner := (leads_messageHead head).trans (ihInner hy (messageHead.value head))
          fun _ _ => trivial
        have hfirst : Leads (Reader.members name) members [] Reader.message message
            fun t => Reads.bodyKind? t = some .message :=
          .first (hmessage name) fun _ hused => begun_nested (hused.seq hinhabited)
        exact hfirst.trans hinner fun ts _ => hbegins.front_append head y.before ts
      · obtain ⟨y, hy, rfl⟩ := List.mem_map.mp h
        have hnested : message.Begins fun t => Reads.bodyKind? t = some .message :=
          Reads.begins_message rfl
        exact .behindFront hnested (hmessage name) Reads.message (head, inner)
          (ihRest hy name).mapped fun _ => begun_nested

/-! ### Numbers -/

theorem begun_numberEnd : (fieldOptions.seq (punct .semicolon)).Begun [] :=
  Reader.Pinpoints.fieldOptions.inhabited.seq Reader.Pinpoints.punct.inhabited

/-- What stands before the number of a field leads to the reader of numbers. -/
theorem leads_fieldNumber (e : field.Tree) :
    Leads Reader.field field (fieldLead e) (Reader.integer false) (token (int32? false))
      Always := by
  have hlead : fieldLead e = optionalLabel.tokens e.1 ++ (typeRef.tokens e.2.1 ++
      (identifier.tokens e.2.2.1 ++ ((punct .equals).tokens e.2.2.2.1 ++ []))) := by
    simp [fieldLead]
  have hname : identifier.Begins (· ≠ .punct .dot) := Reads.begins_identifier (by simp)
  have htype : typeRef.Begins fun t => Grammar.label? t = none :=
    Reads.begins_typeRef (fun _ => rfl) fun _ => rfl
  rw [hlead]
  unfold Reader.field field
  refine .lined fun _ => .behind Reads.optionalLabel e.1 (.behind Reads.typeRef e.2.1
    (.next Reads.identifier e.2.2.1 (.next Reads.expect e.2.2.2.1
      (Leads.refl.inFront begun_numberEnd))) ?_) ?_
  · exact fun ts _ => hname.front_append _ _ ts
  · exact fun ts _ => htype.front_append _ _ ts

/-- The sign of a number leads to the reader of numbers with that sign. -/
theorem leads_sign (n : signedInteger.Tree) :
    Leads Reader.signedInteger signedInteger (sign n) (Reader.integer n.1)
      (token (int32? n.1)) (· ≠ .punct .minus) := by
  obtain ⟨negative, n⟩ := n
  cases negative with
  | false =>
      refine ⟨fun hts hn => ?_, fun hused => ?_⟩
      · exact (Reader.accept_of_not_front _ hts).trans hn
      · exact Begun.choice false hused
  | true =>
      have hminus : (punct .minus).Begins (· = .punct .minus) := begins_exactly rfl
      refine .behindFront (f := fun _ => Reader.integer true) hminus (fun ts hts => ?_)
        Reads.expect n.1 .refl fun _ hused => ?_
      · exact Reader.accept_of_front _ (by simp) hts
      · exact Begun.choice true hused

/-- What stands before the number of an enum value leads to the reader of numbers with its
sign. -/
theorem leads_valueNumber (v : enumValue.Tree) :
    Leads Reader.enumValue enumValue (valueLead v) (Reader.integer (valueNegative v))
      (token (int32? (valueNegative v))) (· ≠ .punct .minus) := by
  unfold Reader.enumValue enumValue
  exact .lined fun _ => .next Reads.identifier v.1 (.next Reads.expect v.2.1
    ((leads_sign v.2.2.1).inFront begun_numberEnd))

/-! ### Fields and enums -/

/-- What may begin a field. -/
def BeginsField (t : Token) : Prop := Reads.memberKind t = .field ∧ Reads.bodyKind? t = some .plain

theorem begins_field : field.Begins BeginsField :=
  Reads.begins_field (fun _ => ⟨rfl, rfl⟩) (fun _ => ⟨rfl, rfl⟩) fun _ => ⟨rfl, rfl⟩

/-- What begins an enum. -/
def BeginsEnum (t : Token) : Prop := t = .keyword .enum

/-- What begins an enum value. -/
def BeginsValue (t : Token) : Prop := ∃ w, t = .ident w

theorem leads_field : Leads Reader.plainMember plainMember [] Reader.field field BeginsField := by
  refine .first (f := fun a => pure [.field a]) (fun ts hts => ?_) fun _ hused => ?_
  · rw [Reads.plainMember_apply, hts.1]
  · exact Begun.choice MemberKind.field hused

theorem leads_enum : Leads Reader.plainMember plainMember [] Reader.enum enum BeginsEnum := by
  refine .first (f := fun a => pure [.enum a]) (fun ts hts => ?_) fun _ hused => ?_
  · rw [Reads.plainMember_apply, hts]
    rfl
  · exact Begun.choice MemberKind.enum hused

theorem leads_enumValue (name : String) :
    Leads (Reader.enumItem name) enumItem [] Reader.enumValue enumValue BeginsValue := by
  refine .first (f := fun a => pure [a]) (fun ts hts => ?_) fun _ hused => ?_
  · obtain ⟨w, hw⟩ := hts
    rw [Reads.enumItem_apply, hw]
    rfl
  · exact Begun.choice ItemKind.value hused

/-- The head of an enum leads to the reader of its items. -/
theorem leads_enumHead (e : enum.Tree) :
    Leads Reader.enum enum (enumHead e)
      (Reader.manyUntil Reader.isCloseBrace (Reader.enumItem (identifier.value e.2.1))
        (Reader.takes_enumItem _)) enumItems Always := by
  have hhead : enumHead e = (keyword .enum).tokens e.1 ++
      (identifier.tokens e.2.1 ++ ((punct .openBrace).tokens e.2.2.1 ++ [])) := by
    simp [enumHead]
  rw [hhead]
  unfold Reader.enum enum
  exact .lined fun _ => .next Reads.expect e.1 (.next Reads.identifier e.2.1
    (.next Reads.expect e.2.2.1 (Leads.refl.inFront Reader.Pinpoints.punct.inhabited)))

/-- What stands before a value of an enum leads to the reader of values. -/
theorem leads_of_mem_values {e : enum.Tree} {v : Part enumValue}
    (h : v ∈ narrow enumValue? (partsOf enumItem e.2.2.2.1)) :
    Leads Reader.enum enum (enumHead e ++ v.before) Reader.enumValue enumValue BeginsValue := by
  obtain ⟨x, hx, -, hbefore⟩ := mem_narrow h
  rw [hbefore]
  have hbegins : enumItem.Begins fun t => Reader.isCloseBrace t = false :=
    Reads.begins_enumItem rfl rfl fun _ => rfl
  refine (leads_enumHead e).trans ((leads_of_mem_partsOf (Reads.enumItem _) hbegins hx).into
    (leads_enumValue _) ?_) fun _ _ => trivial
  rintro t ⟨w, rfl⟩
  rfl

/-! ### The whole text -/

/-- What stands before a statement leads to the reader of statements. -/
theorem leads_of_mem_statements {d : file.Tree} {s : Part statement}
    (h : s ∈ partsOf statement (statementsOf d)) :
    Leads Reader.schema schema (headLine d ++ s.before) Reader.statement statement
      fun t => Reader.isEof t = false := by
  have hhead : headLine d = (keyword .edition).tokens d.1.1 ++ ((punct .equals).tokens d.1.2.1 ++
      (string.tokens d.1.2.2.1 ++ ((punct .semicolon).tokens d.1.2.2.2.1 ++ []))) := by
    simp [headLine]
  have hstatements : Leads Reader.schema schema (headLine d)
      (Reader.manyUntil Reader.isEof Reader.statement Reader.takes_statement) statements
      Always := by
    rw [hhead]
    unfold Reader.schema schema
    exact .map (.next Reads.expect d.1.1 (.next Reads.expect d.1.2.1
      (.next Reads.string d.1.2.2.1 (.next Reads.expect d.1.2.2.2.1 Leads.refl.mapped))))
  exact hstatements.trans (leads_of_mem_partsOf Reads.statement Reads.statement_goes_on h)
    fun _ _ => trivial

/-- A message at the top level leads to the members in it. -/
theorem leads_topMessage (head : messageHead.Tree) {body : Body} {x : Part plainMember}
    (h : x ∈ body.parts) :
    Leads Reader.statement statement (messageHead.tokens head ++ x.before) Reader.plainMember
      plainMember fun t => Reads.bodyKind? t = some .plain := by
  have hstatement : Leads Reader.statement statement [] Reader.message message
      (· = .keyword .message) := by
    refine .first (f := fun a => pure [.message a.1 a.2.1 a.2.2])
      (fun ts hts => ?_) fun _ hused => ?_
    · rw [Reads.statement_apply, hts]
      rfl
    · exact Begun.choice StatementKind.message hused
  have hmember := (leads_messageHead head).trans (leads_of_mem_parts h _) fun _ _ => trivial
  have hbegins : messageHead.Begins (· = .keyword .message) := Reads.begins_messageHead rfl
  exact hstatement.trans hmember fun ts _ => hbegins.front_append head x.before ts

theorem leads_topEnum : Leads Reader.statement statement [] Reader.enum enum BeginsEnum := by
  refine .first (f := fun a => pure [.enum a]) (fun ts hts => ?_) fun _ hused => ?_
  · rw [Reads.statement_apply, hts]
    rfl
  · exact Begun.choice StatementKind.enum hused

/-- What stands before a field or an enum of a text leads to the reader of fields or enums. -/
theorem leads_of_mem_memberParts {d : file.Tree} {x : Part plainMember} (h : x ∈ memberParts d) :
    (∀ e, x.tree = ⟨.field, e⟩ →
        Leads Reader.schema schema x.before Reader.field field BeginsField) ∧
      ∀ e, x.tree = ⟨.enum, e⟩ →
        Leads Reader.schema schema x.before Reader.enum enum BeginsEnum := by
  obtain ⟨s, hs, hx⟩ := List.mem_flatMap.mp h
  obtain ⟨y, hy, rfl⟩ := List.mem_map.mp hx
  have hstatement := leads_of_mem_statements hs
  obtain ⟨before, kind, e⟩ := s
  cases kind with
  | message =>
      obtain ⟨z, hz, rfl⟩ := List.mem_map.mp hy
      have hmember := leads_topMessage e.1 hz
      have hbegins : messageHead.Begins fun t => Reader.isEof t = false :=
        Reads.begins_messageHead rfl
      constructor
      · exact fun _ _ => hstatement.trans (hmember.into leads_field fun _ ht => ht.2)
          fun ts _ => hbegins.front_append e.1 z.before ts
      · exact fun _ _ => hstatement.trans (hmember.into leads_enum fun _ ht => ht ▸ rfl)
          fun ts _ => hbegins.front_append e.1 z.before ts
  | enum =>
      obtain rfl := List.mem_singleton.mp hy
      constructor
      · exact fun _ he => nomatch he
      · exact fun _ _ => hstatement.trans leads_topEnum fun ts hts => hts ▸ rfl
  | _ => cases hy

/-- What stands before the number of a field leads to the reader of numbers. -/
theorem leads_of_mem_fieldsOf {d : file.Tree} {f : Part field} (h : f ∈ fieldsOf d) :
    Leads Reader.schema schema (f.before ++ fieldLead f.tree) (Reader.integer false)
      (token (int32? false)) Always := by
  obtain ⟨x, hx, hf, hbefore⟩ := mem_narrow h
  rw [hbefore]
  refine ((leads_of_mem_memberParts hx).1 _ (eq_of_field? hf)).trans (leads_fieldNumber f.tree)
    fun ts _ => ?_
  -- A field has tokens before its number, so the first of them begins it.
  obtain ⟨after, htokens⟩ := field_tokens f.tree
  have hfront := begins_field.front f.tree []
  cases hlead : fieldLead f.tree with
  | nil => simp [fieldLead] at hlead
  | cons t lead =>
      rw [htokens, hlead] at hfront
      exact hfront

/-- What stands before the number of an enum value leads to the reader of numbers with its
sign. -/
theorem leads_of_mem_valuesOf {d : file.Tree} {e : Part enum} {v : Part enumValue}
    (he : e ∈ enumsOf d) (hv : v ∈ valuesOf e) :
    Leads Reader.schema schema (v.before ++ valueLead v.tree)
      (Reader.integer (valueNegative v.tree)) (token (int32? (valueNegative v.tree)))
      (· ≠ .punct .minus) := by
  obtain ⟨x, hx, htree, hbefore⟩ := mem_narrow he
  obtain ⟨y, hy, rfl⟩ := List.mem_map.mp hv
  have henum := (leads_of_mem_memberParts hx).2 _ (eq_of_enum? htree)
  have hname : identifier.Begins BeginsValue := Reads.begins_identifier fun w => ⟨w, rfl⟩
  have hkeyword : (keyword .enum).Begins BeginsEnum := begins_exactly rfl
  have hvalue := (leads_of_mem_values hy).trans (leads_valueNumber y.tree)
    fun ts _ => hname.front_append _ _ ts
  have hall := henum.trans hvalue fun ts _ => by
    rw [List.append_assoc (enumHead e.tree)]
    exact hkeyword.front_append e.tree.1 _ ts
  rwa [← hbefore, ← List.append_assoc, ← List.append_assoc] at hall

end Grammar

end Schemata
