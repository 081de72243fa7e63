/-
Leaving out what declares nothing.

Options and empty statements are part of the grammar and of nothing else: a tree that has them
and one that has not stand for the same declarations.  `Omits` relates a tree to what is left
of it when any of them are left out, whole statements as well as the options of fields and of
the values of enums; one lemma for each production says that the tokens are then some of those
there were, and that the value is the same, lines included.  Where a declaration begins is
never left out, so no line changes.

A text is read if and only if it has a tree, so it makes no difference to reading either
whether these parts are taken out of it or put in.
-/
import Mathlib.Data.List.Basic
import Schemata.Proofs.Grammar.Files

namespace Schemata

namespace Production

variable {α β : Type} {A : Production α}

/-- What `R` relates a tree to is written with some of its tokens, and has its value. -/
structure Hides (A : Production α) (R : A.Tree → A.Tree → Prop) : Prop where
  sublist : ∀ {d d'}, R d d' → (A.tokens d').Sublist (A.tokens d)
  value : ∀ {d d'}, R d d' → A.value d' = A.value d

/-- The second list is the first with some of its idle elements left out and `R` between the
others. -/
inductive Thins (idle : α → Prop) (R : α → α → Prop) : List α → List α → Prop
  | nil : Thins idle R [] []
  | keep {a a' : α} {as as' : List α} (h : R a a') (hlater : Thins idle R as as') :
      Thins idle R (a :: as) (a' :: as')
  | drop {a : α} {as as' : List α} (h : idle a) (hlater : Thins idle R as as') :
      Thins idle R (a :: as) as'

/-- Idle parts that repeat may be left out if their values are empty. -/
theorem Hides.thins {A : Production (List α)} {R : A.Tree → A.Tree → Prop} {idle : A.Tree → Prop}
    (h : A.Hides R) (hidle : ∀ d, idle d → A.value d = []) :
    (A.many.map List.flatten).Hides (Thins idle R) where
  sublist := by
    intro ds ds' hthins
    induction hthins with
    | nil => exact .slnil
    | keep hd _ ih => exact (h.sublist hd).append ih
    | drop _ _ ih => exact ih.trans (List.sublist_append_right _ _)
  value := by
    intro ds ds' hthins
    show (ds'.map A.value).flatten = (ds.map A.value).flatten
    induction hthins with
    | nil => rfl
    | keep hd _ ih => rw [List.map_cons, List.map_cons, List.flatten_cons, List.flatten_cons,
        h.value hd, ih]
    | drop hd _ ih => rw [List.map_cons, List.flatten_cons, hidle _ hd, List.nil_append, ih]

end Production

open Production

namespace Grammar

/-! ### Trees with parts left out -/

/-- The options of a field may be left out. -/
inductive OmitsInField : field.Tree → field.Tree → Prop
  | same (d : field.Tree) : OmitsInField d d
  | options {label type name equals number options semicolon} :
      OmitsInField (label, type, name, equals, number, options, semicolon)
        (label, type, name, equals, number, none, semicolon)

/-- The options of a value of an enum may be left out. -/
inductive OmitsInValue : enumValue.Tree → enumValue.Tree → Prop
  | same (d : enumValue.Tree) : OmitsInValue d d
  | options {name equals number options semicolon} :
      OmitsInValue (name, equals, number, options, semicolon)
        (name, equals, number, none, semicolon)

/-- What declares nothing in an enum. -/
inductive ItemKind.Idle : ItemKind → Prop
  | option : Idle .option
  | empty : Idle .empty

inductive OmitsInItem : enumItem.Tree → enumItem.Tree → Prop
  | same (d : enumItem.Tree) : OmitsInItem d d
  | value {d d' : enumValue.Tree} (h : OmitsInValue d d') : OmitsInItem ⟨.value, d⟩ ⟨.value, d'⟩

/-- Options and empty statements may be left out of an enum. -/
inductive OmitsInEnum : enum.Tree → enum.Tree → Prop
  | mk {keyword name opens items items' closes}
      (h : Thins (·.1.Idle) OmitsInItem items items') :
      OmitsInEnum (keyword, name, opens, items, closes) (keyword, name, opens, items', closes)

/-- What declares nothing in a message. -/
inductive MemberKind.Idle : MemberKind → Prop
  | option : Idle .option
  | empty : Idle .empty

inductive OmitsInMember : plainMember.Tree → plainMember.Tree → Prop
  | same (d : plainMember.Tree) : OmitsInMember d d
  | enum {d d' : enum.Tree} (h : OmitsInEnum d d') : OmitsInMember ⟨.enum, d⟩ ⟨.enum, d'⟩
  | field {d d' : field.Tree} (h : OmitsInField d d') : OmitsInMember ⟨.field, d⟩ ⟨.field, d'⟩

/-- Options and empty statements may be left out of a message, and of those in it. -/
inductive OmitsInBody : Body → Body → Prop
  | close (brace : (punct .closeBrace).Tree) : OmitsInBody (.close brace) (.close brace)
  | plain {member member' : plainMember.Tree} {rest rest' : Body}
      (hmember : OmitsInMember member member') (hrest : OmitsInBody rest rest') :
      OmitsInBody (.plain member rest) (.plain member' rest')
  | drop {member : plainMember.Tree} {rest rest' : Body} (hmember : member.1.Idle)
      (hrest : OmitsInBody rest rest') : OmitsInBody (.plain member rest) rest'
  | message {head : messageHead.Tree} {inner inner' rest rest' : Body}
      (hinner : OmitsInBody inner inner') (hrest : OmitsInBody rest rest') :
      OmitsInBody (.message head inner rest) (.message head inner' rest')

/-- What declares nothing at the top level. -/
inductive StatementKind.Idle : StatementKind → Prop
  | option : Idle .option
  | empty : Idle .empty

inductive OmitsInStatement : statement.Tree → statement.Tree → Prop
  | same (d : statement.Tree) : OmitsInStatement d d
  | enum {d d' : enum.Tree} (h : OmitsInEnum d d') : OmitsInStatement ⟨.enum, d⟩ ⟨.enum, d'⟩
  | message {head : messageHead.Tree} {body body' : Body} (h : OmitsInBody body body') :
      OmitsInStatement ⟨.message, (head, body)⟩ ⟨.message, (head, body')⟩

/-- Options and empty statements may be left out of a text, at any depth. -/
inductive Omits : schema.Tree → schema.Tree → Prop
  | mk {keyword equals edition semicolon statements statements'}
      (h : Thins (·.1.Idle) OmitsInStatement statements statements') :
      Omits (keyword, equals, edition, semicolon, statements)
        (keyword, equals, edition, semicolon, statements')

/-! ### What is left out leaves no trace -/

/-- A field begins with its label or its type. -/
theorem firstLine_label_type (label : optionalLabel.Tree) (type : typeRef.Tree)
    (more : List Located) :
    firstLine (optionalLabel.tokens label ++ (typeRef.tokens type ++ more)) =
      firstLine (optionalLabel.tokens label ++ typeRef.tokens type) := by
  have hlabel : (token Grammar.label?).Begins Always := begins_token fun _ _ => trivial
  have htype : typeRef.Begins Always := Reads.begins_typeRef (fun _ => trivial) fun _ => trivial
  have hbegins : (optionalLabel.seq typeRef).Begins Always := hlabel.opt_seq htype
  rw [← List.append_assoc]
  exact hbegins.firstLine (label, type) more

theorem hides_field : field.Hides OmitsInField where
  sublist := by
    intro d d' h
    cases h with
    | same => exact .refl _
    | options =>
        unfold field fieldOptions
        simp
  value := by
    intro d d' h
    cases h with
    | same => rfl
    | options =>
        show FieldDecl.mk _ _ _ _ (firstLine (_ ++ (_ ++ _))) =
          FieldDecl.mk _ _ _ _ (firstLine (_ ++ (_ ++ _)))
        rw [firstLine_label_type, firstLine_label_type]

theorem hides_enumValue : enumValue.Hides OmitsInValue where
  sublist := by
    intro d d' h
    cases h with
    | same => exact .refl _
    | options =>
        unfold enumValue fieldOptions
        simp
  value := by
    intro d d' h
    cases h <;> rfl

theorem hides_enumItem : enumItem.Hides OmitsInItem where
  sublist := by
    intro d d' h
    cases h with
    | same => exact .refl _
    | value h => exact hides_enumValue.sublist h
  value := by
    intro d d' h
    cases h with
    | same => rfl
    | value h => exact congrArg (fun v => [v]) (hides_enumValue.value h)

theorem hides_enumItems : enumItems.Hides (Thins (·.1.Idle) OmitsInItem) := by
  refine hides_enumItem.thins ?_
  rintro ⟨_, d⟩ (_ | _) <;> rfl

theorem hides_enum : enum.Hides OmitsInEnum where
  sublist := by
    intro d d' h
    cases h with
    | mk h =>
        have hitems := hides_enumItems.sublist h
        unfold enum
        simpa using hitems
  value := by
    intro d d' h
    cases h with
    | mk h => exact congrArg (EnumDecl.mk _ _) (hides_enumItems.value h)

theorem hides_plainMember : plainMember.Hides OmitsInMember where
  sublist := by
    intro d d' h
    cases h with
    | same => exact .refl _
    | enum h => exact hides_enum.sublist h
    | field h => exact hides_field.sublist h
  value := by
    intro d d' h
    cases h with
    | same => rfl
    | enum h => exact congrArg (fun e => [Member.enum e]) (hides_enum.value h)
    | field h => exact congrArg (fun f => [Member.field f]) (hides_field.value h)

theorem value_of_idle_member {d : plainMember.Tree} (h : d.1.Idle) : plainMember.value d = [] := by
  obtain ⟨_, d⟩ := d
  cases h <;> rfl

/-- By induction on the body that is left. -/
theorem hides_members : members.Hides OmitsInBody where
  sublist := by
    intro b b' h
    show b'.tokens.Sublist b.tokens
    induction h with
    | close => exact .refl _
    | plain hmember _ ih => exact (hides_plainMember.sublist hmember).append ih
    | drop _ _ ih => exact ih.trans (List.sublist_append_right _ _)
    | message _ _ ihInner ihRest => exact (List.Sublist.refl _).append (ihInner.append ihRest)
  value := by
    intro b b' h
    show b'.members = b.members
    induction h with
    | close => rfl
    | plain hmember _ ih => rw [Body.members, Body.members, hides_plainMember.value hmember, ih]
    | drop hidle _ ih => rw [Body.members, value_of_idle_member hidle, List.nil_append, ih]
    | message _ _ ihInner ihRest => rw [Body.members, Body.members, ihInner, ihRest]

theorem hides_statement : statement.Hides OmitsInStatement where
  sublist := by
    intro d d' h
    cases h with
    | same => exact .refl _
    | enum h => exact hides_enum.sublist h
    | message h => exact (List.Sublist.refl _).append (hides_members.sublist h)
  value := by
    intro d d' h
    cases h with
    | same => rfl
    | enum h => exact congrArg (fun e => [Decl.enum e]) (hides_enum.value h)
    | message h => exact congrArg (fun body => [Decl.message _ _ body]) (hides_members.value h)

theorem hides_statements : statements.Hides (Thins (·.1.Idle) OmitsInStatement) := by
  refine hides_statement.thins ?_
  rintro ⟨_, d⟩ (_ | _) <;> rfl

theorem hides_schema : schema.Hides Omits where
  sublist := by
    intro d d' h
    cases h with
    | mk h =>
        have hstatements := hides_statements.sublist h
        unfold schema
        simpa using hstatements
  value := by
    intro d d' h
    cases h with
    | mk h => exact congrArg (Schema.mk _) (hides_statements.value h)

end Grammar

open Grammar

/-- A tree up to the end of input is read as its value, whatever stands behind the end. -/
theorem Schema.read_of_tree (d : schema.Tree) {rest : List Located} (hne : rest ≠ [])
    (hends : frontToken rest = .eof) (hlast : rest.getLast?.map (·.token) = some .eof) :
    Schema.read (schema.tokens d ++ rest) = .ok (schema.value d) := by
  have hread := Reads.schema.complete d rest (decide_eq_true hends)
  refine Schema.read_ok_iff_schema.mpr ⟨?_, rest, hread⟩
  rwa [List.getLast?_append_of_ne_nil _ hne]

/-- **Options are invisible.**  A list of tokens that is read is a tree up to its first end of
input, and one tree only.  Leave out of the tree any of its options and empty statements, or
put in any that the grammar has a place for: what it is written with then is read too, and as
the same declarations with the same lines. -/
theorem Schema.read_hides_options {ts : List Located} {s : Schema} (h : Schema.read ts = .ok s) :
    ∃ d rest, ts = schema.tokens d ++ rest ∧ frontToken rest = .eof ∧
      (∀ d₁ rest₁, ts = schema.tokens d₁ ++ rest₁ → frontToken rest₁ = .eof →
        d₁ = d ∧ rest₁ = rest) ∧
      (∀ d', Omits d d' → (schema.tokens d').Sublist (schema.tokens d) ∧
        Schema.read (schema.tokens d' ++ rest) = .ok s) ∧
      ∀ d', Omits d' d → (schema.tokens d).Sublist (schema.tokens d') ∧
        Schema.read (schema.tokens d' ++ rest) = .ok s := by
  obtain ⟨hlast, rest, hschema⟩ := Schema.read_ok_iff_schema.mp h
  obtain ⟨d, rfl, rfl⟩ := Reads.schema.sound hschema
  have hends : frontToken rest = .eof := of_decide_eq_true (Reader.schema_ends hschema)
  -- A tree has no end of input among its tokens, so the last token stands behind it.
  have hne : rest ≠ [] := by
    rintro rfl
    obtain ⟨used, hused, -, hlive⟩ := Reader.takes_schema hschema
    obtain ⟨last, hmem, heof⟩ := Option.map_eq_some_iff.mp hlast
    rw [hused, List.append_nil] at hmem
    exact hlive last (List.mem_of_getLast? hmem) heof
  rw [List.getLast?_append_of_ne_nil _ hne] at hlast
  refine ⟨d, rest, rfl, hends, fun d₁ rest₁ heq hends₁ => ?_, fun d' hd => ?_, fun d' hd => ?_⟩
  · exact Reads.schema.cancel (decide_eq_true hends₁) (decide_eq_true hends) heq.symm
  · rw [← hides_schema.value hd]
    exact ⟨hides_schema.sublist hd, Schema.read_of_tree d' hne hends hlast⟩
  · rw [hides_schema.value hd]
    exact ⟨hides_schema.sublist hd, Schema.read_of_tree d' hne hends hlast⟩

/-- A token and the line it stands on. -/
def onLine (line : Nat) (t : Token) : Located := ⟨t, ⟨line, 1⟩⟩

/-- `a = 1`, on one line. -/
def assignmentOn (line : Nat) : assignment.Tree :=
  ((⟨.plain, onLine line (.ident "a"), rfl⟩, []), ⟨onLine line (.punct .equals), rfl⟩,
    ⟨.literal, onLine line (.int 1), rfl⟩)

/-- `enum E { items A = 0 options; }`, on three lines. -/
def enumWith (items : List enumItem.Tree) (options : fieldOptions.Tree) : statement.Tree :=
  ⟨.enum, (⟨onLine 3 (.keyword .enum), rfl⟩, ⟨onLine 3 (.ident "E"), rfl⟩,
    ⟨onLine 3 (.punct .openBrace), rfl⟩,
    items ++ [⟨.value, (⟨onLine 4 (.ident "A"), rfl⟩, ⟨onLine 4 (.punct .equals), rfl⟩,
      ⟨false, onLine 4 (.int 0), rfl⟩, options, ⟨onLine 4 (.punct .semicolon), rfl⟩)⟩],
    ⟨onLine 5 (.punct .closeBrace), rfl⟩)⟩

/-- `syntax = "proto3"; statements`. -/
def textWith (statements : List statement.Tree) : schema.Tree :=
  (⟨onLine 1 (.keyword .edition), rfl⟩, ⟨onLine 1 (.punct .equals), rfl⟩,
    ⟨onLine 1 (.str "proto3"), rfl⟩, ⟨onLine 1 (.punct .semicolon), rfl⟩, statements)

/-- A text with an option, and an empty statement and an option in its enum. -/
def padded : schema.Tree :=
  textWith [
    ⟨.option, ⟨onLine 2 (.keyword .option), rfl⟩, assignmentOn 2,
      ⟨onLine 2 (.punct .semicolon), rfl⟩⟩,
    enumWith [⟨.empty, onLine 3 (.punct .semicolon), rfl⟩] <|
      some (⟨onLine 4 (.punct .openBracket), rfl⟩, assignmentOn 4, [],
        ⟨onLine 4 (.punct .closeBracket), rfl⟩)]

/-- The same text without them. -/
def unpadded : schema.Tree := textWith [enumWith [] none]

/-- The two declare the same enum on the same lines. -/
theorem Schema.read_hides_options_padded :
    Omits padded unpadded ∧
    Schema.read (schema.tokens padded ++ [onLine 6 .eof]) =
      .ok ⟨"proto3", [.enum ⟨"E", 3, [⟨"A", 0, 4⟩]⟩]⟩ ∧
    Schema.read (schema.tokens unpadded ++ [onLine 6 .eof]) =
      .ok ⟨"proto3", [.enum ⟨"E", 3, [⟨"A", 0, 4⟩]⟩]⟩ := by
  have homits : Omits padded unpadded :=
    .mk (.drop .option (.keep (.enum (.mk (.drop .empty (.keep (.value .options) .nil)))) .nil))
  have hpadded : Schema.read (schema.tokens padded ++ [onLine 6 .eof]) =
      .ok ⟨"proto3", [.enum ⟨"E", 3, [⟨"A", 0, 4⟩]⟩]⟩ :=
    Schema.read_of_tree padded (by simp) rfl rfl
  obtain ⟨d, rest, -, -, hunique, homitted, -⟩ := Schema.read_hides_options hpadded
  obtain ⟨rfl, rfl⟩ := hunique padded [onLine 6 .eof] rfl rfl
  exact ⟨homits, hpadded, (homitted unpadded homits).2⟩

end Schemata
