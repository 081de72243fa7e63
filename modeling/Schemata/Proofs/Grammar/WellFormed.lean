/-
What trees are made of.

Lexing makes identifiers of words that are not reserved, and of digits numbers that are not
below zero.  A tree is made of nothing else: every name in it is an identifier, every dotted
name a row of them, every field's number a number without a sign.  One lemma for each
production of the grammar says so, and reading gives the value of a production.
-/
import Schemata.Proofs.Grammar.Files
import Schemata.Proofs.Lowering.Parts
import Schemata.Proofs.Token.Segments

namespace Schemata

open Production Lexer

/-! ### Tokens -/

/-- A word is an identifier, and an integer is not below zero. -/
def Token.Legible : Token → Prop
  | .ident w => IsIdentifier w
  | .int n => 0 ≤ n
  | _ => True

theorem Lexer.Written.legible {t : Token} {text rest : List Char} (h : Written t text rest) :
    t.Legible := by
  cases h with
  | ident hname hends => exact hname
  | int h hzero hvalue => exact Int64.le_iff_toInt_le.mpr hvalue.nonneg
  | hex hmark hdigits hends hvalue => exact Int64.le_iff_toInt_le.mpr hvalue.nonneg
  | _ => trivial

/-- **Lexing yields legible tokens.** -/
theorem legible_of_lex {text : String} {ts : List Located} (h : lex text = .ok ts) :
    ∀ t ∈ ts, t.token.Legible := by
  intro t ht
  by_cases hend : t.token = .eof
  · rw [hend]
    trivial
  · obtain ⟨_, _, _, -, -, hwritten⟩ := exists_written_of_lex h ht hend
    exact hwritten.legible

/-! ### Trees -/

/-- The segments of a dotted name: identifiers, and one at least. -/
structure AreIdentifiers (segments : List String) : Prop where
  ne_nil : segments ≠ []
  all : ∀ w ∈ segments, IsIdentifier w

/-- A type that is written as a name is a dotted name. -/
def TypeRef.WellFormed : TypeRef → Prop
  | .scalar _ => True
  | .named segments => AreIdentifiers segments

structure FieldDecl.WellFormed (f : FieldDecl) : Prop where
  name : IsIdentifier f.name
  type : f.type.WellFormed
  number : 0 ≤ f.number.toInt

structure EnumDecl.WellFormed (e : EnumDecl) : Prop where
  name : IsIdentifier e.name
  values : ∀ v ∈ e.values, IsIdentifier v.name

/-- The messages, fields and enums of a body are well formed, at any depth. -/
structure Member.WellFormedIn (ms : List Member) : Prop where
  messages : ∀ w ∈ Member.messageNamesIn ms, IsIdentifier w
  fields : ∀ f ∈ Member.fieldsIn ms, f.WellFormed
  enums : ∀ e ∈ Member.enumsIn ms, e.WellFormed

/-- The same of declarations, and packages are dotted names. -/
structure Decl.WellFormedIn (ds : List Decl) : Prop where
  members : Member.WellFormedIn (ds.filterMap Decl.member?)
  packages : ∀ p ∈ ds.filterMap Decl.package?,
    ∃ segments, AreIdentifiers segments ∧ p = ".".intercalate segments

namespace Member.WellFormedIn

theorem nil : WellFormedIn [] where
  messages := by simp [messageNamesIn]
  fields := by simp [fieldsIn]
  enums := by simp [enumsIn]

theorem append {ms ns : List Member} (hm : WellFormedIn ms) (hn : WellFormedIn ns) :
    WellFormedIn (ms ++ ns) where
  messages := messageNamesIn_append ms ns ▸ List.forall_mem_append.mpr ⟨hm.messages, hn.messages⟩
  fields := fieldsIn_append ms ns ▸ List.forall_mem_append.mpr ⟨hm.fields, hn.fields⟩
  enums := enumsIn_append ms ns ▸ List.forall_mem_append.mpr ⟨hm.enums, hn.enums⟩

theorem field {f : FieldDecl} (h : f.WellFormed) : WellFormedIn [.field f] where
  messages := by simp [messageNamesIn, messageNames]
  fields := by simpa [fieldsIn, Member.fields] using h
  enums := by simp [enumsIn, Member.enums]

theorem enum {e : EnumDecl} (h : e.WellFormed) : WellFormedIn [.enum e] where
  messages := by simp [messageNamesIn, messageNames]
  fields := by simp [fieldsIn, Member.fields]
  enums := by simpa [enumsIn, Member.enums] using h

theorem message {name : String} {line : Nat} {body : List Member} (hname : IsIdentifier name)
    (h : WellFormedIn body) : WellFormedIn [.message name line body] where
  messages := by simpa [messageNamesIn, messageNames] using ⟨hname, h.messages⟩
  fields := by simpa [fieldsIn, Member.fields] using h.fields
  enums := by simpa [enumsIn, Member.enums] using h.enums

end Member.WellFormedIn

namespace Decl.WellFormedIn

theorem nil : WellFormedIn [] := ⟨.nil, nofun⟩

theorem append {ds es : List Decl} (hd : WellFormedIn ds) (he : WellFormedIn es) :
    WellFormedIn (ds ++ es) where
  members := List.filterMap_append ▸ hd.members.append he.members
  packages := List.filterMap_append ▸ List.forall_mem_append.mpr ⟨hd.packages, he.packages⟩

theorem flatten {dss : List (List Decl)} (h : ∀ ds ∈ dss, WellFormedIn ds) :
    WellFormedIn dss.flatten := by
  induction dss with
  | nil => exact nil
  | cons ds dss ih =>
      obtain ⟨hds, hdss⟩ := List.forall_mem_cons.mp h
      exact hds.append (ih hdss)

end Decl.WellFormedIn

namespace Grammar

/-! ### Names and numbers -/

theorem yields_identifier : identifier.Yields Token.Legible IsIdentifier := by
  refine yields_token fun t w ht hw => ?_
  cases t with
  | ident v =>
      obtain rfl := Option.some.inj hw
      exact ht
  | _ => cases hw

theorem yields_dottedName : dottedName.Yields Token.Legible AreIdentifiers := by
  have htail : (dotTail ident?).Yields Token.Legible fun ws => ∀ w ∈ ws, IsIdentifier w :=
    .many (.map (.mono (.seq yields_any yields_identifier) fun _ h => h.2))
  unfold dottedName dotted
  refine .map (.mono (.seq yields_identifier htail) ?_)
  rintro ⟨w, ws⟩ ⟨hw, hws⟩
  exact ⟨List.cons_ne_nil _ _, List.forall_mem_cons.mpr ⟨hw, hws⟩⟩

theorem yields_number :
    (token (int32? false)).Yields Token.Legible fun n => 0 ≤ n.toInt := by
  refine yields_token fun t n ht hn => ?_
  cases t with
  | int value =>
      have hvalue : n.toInt = value.toInt := int32?_eq_some.mp hn
      have hlegible : 0 ≤ value := ht
      rw [hvalue]
      exact Int64.le_iff_toInt_le.mp hlegible
  | _ => cases hn

theorem yields_typeRef : typeRef.Yields Token.Legible TypeRef.WellFormed := by
  refine yields_choice fun kind => ?_
  cases kind with
  | scalar => exact .map yields_any
  | named => exact .map yields_dottedName

/-! ### Fields and enums -/

theorem yields_field : field.Yields Token.Legible FieldDecl.WellFormed := by
  unfold field
  refine .map (.mono (.lined (.seq yields_any (.seq yields_typeRef (.seq yields_identifier
    (.seq yields_any (.seq yields_number yields_any)))))) ?_)
  rintro ⟨line, label?, type, name, _, number, _⟩ ⟨-, htype, hname, -, hnumber, -⟩
  exact ⟨hname, htype, hnumber⟩

theorem yields_enumValue : enumValue.Yields Token.Legible fun v => IsIdentifier v.name :=
  .map (.mono (.lined (.seq yields_identifier yields_any)) fun _ h => h.1)

theorem yields_enumItems :
    enumItems.Yields Token.Legible fun vs => ∀ v ∈ vs, IsIdentifier v.name := by
  have hitem : enumItem.Yields Token.Legible fun vs => ∀ v ∈ vs, IsIdentifier v.name := by
    refine yields_choice fun kind => ?_
    cases kind with
    | option => exact .map (.mono yields_any fun _ _ => nofun)
    | empty => exact .map (.mono yields_any fun _ _ => nofun)
    | value => exact .map (.mono yields_enumValue fun _ h => List.forall_mem_singleton.mpr h)
  exact .map (.mono (.many hitem) fun _ h => List.forall_mem_flatten.mpr h)

theorem yields_enum : enum.Yields Token.Legible EnumDecl.WellFormed := by
  unfold enum
  refine .map (.mono (.lined (.seq yields_any (.seq yields_identifier (.seq yields_any
    (.seq yields_enumItems yields_any))))) ?_)
  rintro ⟨line, _, name, _, values, _⟩ ⟨-, hname, -, hvalues, -⟩
  exact ⟨hname, hvalues⟩

/-! ### Messages -/

theorem yields_messageHead : messageHead.Yields Token.Legible IsIdentifier :=
  .map (.mono (.seq yields_any (.seq yields_identifier yields_any)) fun _ h => h.2.1)

theorem yields_plainMember : plainMember.Yields Token.Legible Member.WellFormedIn := by
  refine yields_choice fun kind => ?_
  cases kind with
  | enum => exact .map (.mono yields_enum fun _ h => .enum h)
  | option => exact .map (.mono yields_any fun _ _ => .nil)
  | empty => exact .map (.mono yields_any fun _ _ => .nil)
  | field => exact .map (.mono yields_field fun _ h => .field h)

/-- A body is well formed, by induction on its tree. -/
theorem yields_members : members.Yields Token.Legible Member.WellFormedIn := by
  intro body hbody
  change ∀ t ∈ body.tokens, _ at hbody
  show Member.WellFormedIn body.members
  induction body with
  | close brace => exact .nil
  | plain member rest ih =>
      obtain ⟨hmember, hrest⟩ := List.forall_mem_append.mp hbody
      exact (yields_plainMember member hmember).append (ih hrest)
  | message head inner rest ihinner ihrest =>
      obtain ⟨hhead, hmore⟩ := List.forall_mem_append.mp hbody
      obtain ⟨hinner, hrest⟩ := List.forall_mem_append.mp hmore
      have hmessage := yields_messageHead head hhead
      exact (Member.WellFormedIn.message hmessage (ihinner hinner)).append (ihrest hrest)

/-! ### The whole text -/

theorem yields_statement : statement.Yields Token.Legible Decl.WellFormedIn := by
  refine yields_choice fun kind => ?_
  cases kind with
  | importing => exact .map (.mono yields_any fun _ _ => ⟨.nil, nofun⟩)
  | package =>
      refine .map ?_
      unfold packageStatement
      refine .map (.mono (.lined (.seq yields_any (.seq yields_dottedName yields_any))) ?_)
      rintro ⟨line, _, segments, _⟩ ⟨-, hsegments, -⟩
      exact ⟨.nil, List.forall_mem_singleton.mpr ⟨segments, hsegments, rfl⟩⟩
  | message =>
      refine .map ?_
      unfold message
      refine .map (.mono (.lined (.seq yields_messageHead yields_members)) ?_)
      rintro ⟨line, name, body⟩ ⟨hname, hbody⟩
      exact ⟨.message hname hbody, nofun⟩
  | enum => exact .map (.mono yields_enum fun _ h => ⟨.enum h, nofun⟩)
  | option => exact .map (.mono yields_any fun _ _ => .nil)
  | empty => exact .map (.mono yields_any fun _ _ => .nil)

theorem yields_schema : schema.Yields Token.Legible fun s => Decl.WellFormedIn s.decls := by
  have hstatements : statements.Yields Token.Legible Decl.WellFormedIn :=
    .map (.mono (.many yields_statement) fun _ h => .flatten h)
  unfold schema
  exact .map (.mono (.seq yields_any (.seq yields_any (.seq yields_any (.seq yields_any
    hstatements)))) fun _ h => h.2.2.2.2)

end Grammar

/-- **What is read from legible tokens is well formed.** -/
theorem Schema.wellFormed_of_read {ts : List Located} {s : Schema} (h : Schema.read ts = .ok s)
    (hts : ∀ t ∈ ts, t.token.Legible) : Decl.WellFormedIn s.decls := by
  obtain ⟨-, rest, hschema⟩ := read_ok_iff_schema.mp h
  obtain ⟨d, rfl, rfl⟩ := Reads.schema.sound hschema
  exact Grammar.yields_schema d (List.forall_mem_append.mp hts).1

end Schemata
