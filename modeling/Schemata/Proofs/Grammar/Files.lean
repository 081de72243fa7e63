/-
Reading whole texts by the grammar.

A list of tokens as lexing yields it has the end of input at its end and nowhere else.  On
such a list reading succeeds exactly if the list is what some derivation tree is written
with, there is one such tree, and its value is what is read.
-/
import Schemata.Proofs.Grammar.Declarations
import Schemata.Proofs.Token.Lexemes

namespace Schemata

open Production

namespace Reads

/-! ### Statements -/

theorem importKind :
    Reads Reader.importKind Grammar.importKind fun t => Grammar.importWord? t = none := by
  refine optToken (v := fun k => k.getD ImportKind.plain) rfl rfl fun t ts => ?_
  rw [Reader.importKind]
  unfold Grammar.importWord?
  split <;> simp_all

theorem begins_string : Grammar.string.Begins fun t => Grammar.importWord? t = none := by
  refine begins_token fun t ht => ?_
  cases t with
  | str s => rfl
  | _ => cases ht

theorem importStatement : Reads Reader.importStatement Grammar.importStatement Always := by
  unfold Reader.importStatement Grammar.importStatement
  refine lined (.seq (begins_exactly trivial)) fun _ => expect.seq fun _ => ?_
  exact importKind.seqBefore (.seq begins_string) fun _ => string.seq fun _ => expect.last

theorem packageStatement : Reads Reader.packageStatement Grammar.packageStatement Always := by
  unfold Reader.packageStatement Grammar.packageStatement
  refine lined (.seq (begins_exactly trivial)) fun _ => expect.seq fun _ => ?_
  exact dottedName.seqBefore (begins_exactly (by simp)) fun _ => expect.last

theorem begins_importStatement {first : Token → Prop} (h : first (.keyword .importing)) :
    Grammar.importStatement.Begins first := by
  unfold Grammar.importStatement
  exact .map (.lined (.seq (begins_exactly h)))

theorem begins_packageStatement {first : Token → Prop} (h : first (.keyword .package)) :
    Grammar.packageStatement.Begins first := by
  unfold Grammar.packageStatement
  exact .map (.lined (.seq (begins_exactly h)))

/-- What the first token of a statement says about it. -/
def statementKind? : Token → Option Grammar.StatementKind
  | .keyword .importing => some .importing
  | .keyword .package => some .package
  | .keyword .message => some .message
  | .keyword .enum => some .enum
  | .keyword .option => some .option
  | .punct .semicolon => some .empty
  | _ => none

theorem statement_apply (ts : List Located) : Reader.statement ts =
    match statementKind? (frontToken ts) with
    | some .importing => (do return [.importing (← Reader.importStatement)] : Reader (List Decl)) ts
    | some .package => (do return [← Reader.packageStatement] : Reader _) ts
    | some .message => (do
        let (name, line, body) ← Reader.message
        return [.message name line body] : Reader _) ts
    | some .enum => (do return [.enum (← Reader.enum)] : Reader _) ts
    | some .option => (do Reader.optionStatement; return [] : Reader _) ts
    | some .empty => (do Reader.expect (.punct .semicolon); return [] : Reader _) ts
    | none => Reader.refuse (.expected .declaration) ts := by
  rw [Reader.statement, Reader.peek_bind]
  cases frontToken ts with
  | keyword k => cases k <;> rfl
  | punct p => cases p <;> rfl
  | _ => rfl

theorem statement : Reads Reader.statement Grammar.statement Always := by
  refine choice statementKind? ?_ fun ts a rest hts => ?_
  · intro kind
    cases kind with
    | importing =>
        refine ⟨.map (begins_importStatement rfl), _, importStatement.last, fun ts hts => ?_⟩
        rw [statement_apply, hts]
    | package =>
        refine ⟨.map (begins_packageStatement rfl), _, packageStatement.last, fun ts hts => ?_⟩
        rw [statement_apply, hts]
    | message =>
        refine ⟨.map (begins_message rfl), _, message.last, fun ts hts => ?_⟩
        rw [statement_apply, hts]
    | enum =>
        refine ⟨.map (begins_enum rfl), _, enum.last, fun ts hts => ?_⟩
        rw [statement_apply, hts]
    | option =>
        refine ⟨.map (begins_optionStatement rfl), _, optionStatement.last, fun ts hts => ?_⟩
        rw [statement_apply, hts]
    | empty =>
        refine ⟨.map (begins_exactly rfl), _, expect.last, fun ts hts => ?_⟩
        rw [statement_apply, hts]
  · rw [statement_apply, hts]
    exact Reader.refuse_ne_ok

theorem begins_statement {first : Token → Prop} (h : ∀ t k, statementKind? t = some k → first t) :
    Grammar.statement.Begins first := by
  refine begins_choice fun kind => ?_
  cases kind with
  | importing => exact .map (begins_importStatement (h _ _ rfl))
  | package => exact .map (begins_packageStatement (h _ _ rfl))
  | message => exact .map (begins_message (h _ _ rfl))
  | enum => exact .map (begins_enum (h _ _ rfl))
  | option => exact .map (begins_optionStatement (h _ _ rfl))
  | empty => exact .map (begins_exactly (h _ _ rfl))

/-- No statement begins with the end of input. -/
theorem statement_goes_on : Grammar.statement.Begins fun t => Reader.isEof t = false := by
  refine begins_statement fun t kind ht => ?_
  cases t with
  | eof => cases ht
  | _ => rfl

theorem statements :
    Reads (Reader.manyUntil Reader.isEof Reader.statement Reader.takes_statement)
      Grammar.statements fun t => Reader.isEof t = true := manyUntil statement statement_goes_on

theorem schema : Reads Reader.schema Grammar.schema fun t => Reader.isEof t = true := by
  unfold Reader.schema Grammar.schema
  exact expect.seq fun _ => expect.seq fun _ => string.seq fun _ => expect.seq fun _ =>
    statements.last

end Reads

/-! ### The end of input -/

/-- The list ends with the end of input and has it nowhere else. -/
def Terminated (ts : List Located) : Prop :=
  ∃ body last, ts = body ++ [last] ∧ last.token = .eof ∧ ∀ t ∈ body, t.token ≠ .eof

theorem Lexed.terminated {ts : List Located} (h : Lexed ts) : Terminated ts := by
  obtain ⟨body, last, hts, hlast, hbody⟩ := h
  exact ⟨body, last, hts, hlast, fun t ht => (hbody t ht).ne_eof⟩

/-! ### Whole lists -/

namespace Reader

theorem takes_schema : Takes 1 schema :=
  (takes_bind (takes_expect_keyword _) fun _ => takes_bind (takes_expect_punct _) fun _ =>
    takes_bind takes_string fun _ => takes_bind (takes_expect_punct _) fun _ =>
    takes_bind takes_manyUntil fun _ => takes_pure _).weaken (by simp)

theorem manyUntil_ends {α : Type} {ends : Token → Bool} {item : Reader (List α)}
    {progress : item.Takes 1} {ts rest : List Located} {as : List α}
    (h : manyUntil ends item progress ts = .ok (as, rest)) : ends (frontToken rest) = true := by
  fun_induction manyUntil ends item progress ts generalizing as with
  | case1 ts hends =>
      cases h
      exact hends
  | case2 => cases h
  | case3 ts _ now mid hi ih =>
      obtain ⟨⟨later, last⟩, hlater, h⟩ := Fallible.map_eq_ok.mp h
      cases h
      exact ih hlater

/-- A text is read up to the end of input. -/
theorem schema_ends {ts rest : List Located} {s : Schema} (h : schema ts = .ok (s, rest)) :
    isEof (frontToken rest) = true := by
  obtain ⟨_, _, -, h⟩ := bind_eq_ok.mp h
  obtain ⟨_, _, -, h⟩ := bind_eq_ok.mp h
  obtain ⟨_, _, -, h⟩ := bind_eq_ok.mp h
  obtain ⟨_, _, -, h⟩ := bind_eq_ok.mp h
  obtain ⟨_, _, hdecls, h⟩ := bind_eq_ok.mp h
  obtain ⟨-, rfl⟩ := pure_eq_ok.mp h
  exact manyUntil_ends hdecls

/-- Of a list that ends once, reading leaves the end. -/
theorem rest_of_schema {body rest : List Located} {last : Located} {s : Schema}
    (hbody : ∀ t ∈ body, t.token ≠ .eof) (hlast : last.token = .eof)
    (h : schema (body ++ [last]) = .ok (s, rest)) : rest = [last] := by
  obtain ⟨used, hused, -, hlive⟩ := takes_schema h
  rcases List.append_eq_append_iff.mp hused with ⟨more, rfl, hrest⟩ | ⟨more, rfl, hrest⟩
  · cases more with
    | nil => exact hrest.symm
    | cons t more =>
        obtain ⟨rfl, -⟩ := List.cons.inj hrest
        exact absurd hlast (hlive last (by simp))
  · cases more with
    | nil => exact hrest
    | cons t more =>
        have hends := schema_ends h
        rw [hrest] at hends
        have ht : t.token = .eof := of_decide_eq_true hends
        exact absurd ht (hbody t (by simp))

end Reader

/-- A list is read if it ends with the end of input and begins with a tree. -/
theorem Schema.read_ok_iff_schema {ts : List Located} {s : Schema} :
    Schema.read ts = .ok s ↔
      ts.getLast?.map (·.token) = some .eof ∧ ∃ rest, Reader.schema ts = .ok (s, rest) := by
  unfold Schema.read
  cases hlast : ts.getLast? with
  | none => simp
  | some last =>
      by_cases heof : last.token = .eof
      · simp [heof, Fallible.map_eq_ok]
      · simp [heof]

/-- What is read is what a derivation tree is written with. -/
theorem exists_tree_of_read {ts : List Located} {s : Schema} (hts : Terminated ts)
    (h : Schema.read ts = .ok s) :
    ∃ d, Grammar.file.tokens d = ts ∧ Grammar.file.value d = s := by
  obtain ⟨body, last, rfl, hlast, hbody⟩ := hts
  obtain ⟨-, rest, hschema⟩ := Schema.read_ok_iff_schema.mp h
  obtain rfl := Reader.rest_of_schema hbody hlast hschema
  obtain ⟨d, hd, rfl⟩ := Reads.schema.sound hschema
  exact ⟨(d, ⟨last, by simp [hlast]⟩), hd.symm, rfl⟩

theorem begins_eof : (exactly .eof).Begins fun t => Reader.isEof t = true :=
  begins_exactly (by decide)

/-- What a derivation tree is written with is read. -/
theorem Schema.read_tokens (d : Grammar.file.Tree) :
    Schema.read (Grammar.file.tokens d) = .ok (Grammar.file.value d) := by
  obtain ⟨d, last, hlast⟩ := d
  have heof : last.token = .eof := of_decide_eq_true (begins_eof.front ⟨last, hlast⟩ [])
  refine Schema.read_ok_iff_schema.mpr ⟨?_, [last], ?_⟩
  · show (Grammar.schema.tokens d ++ [last]).getLast?.map (·.token) = some .eof
    rw [List.getLast?_concat, Option.map_some, heof]
  · exact Reads.schema.complete d [last] (begins_eof.front ⟨last, hlast⟩ [])

/-- **Reading accepts what the grammar derives.**  On a list that ends once, as lexing
yields it, reading succeeds exactly if the list is what a derivation tree is written with;
it gives the tree's value, and there is no other tree. -/
theorem read_eq_ok_iff {ts : List Located} (hts : Terminated ts) :
    (∀ s, Schema.read ts = .ok s ↔
      ∃ d, Grammar.file.tokens d = ts ∧ Grammar.file.value d = s) ∧
    (∀ d d', Grammar.file.tokens d = ts → Grammar.file.tokens d' = ts → d = d') := by
  constructor
  · intro s
    refine ⟨exists_tree_of_read hts, ?_⟩
    rintro ⟨d, rfl, rfl⟩
    exact Schema.read_tokens d
  · intro d d' hd hd'
    have hfile : Grammar.file.Unambiguous Always :=
      Reads.schema.cancel.seq unambiguous_exactly fun eof rest _ => begins_eof.front eof rest
    have heq : Grammar.file.tokens d ++ [] = Grammar.file.tokens d' ++ [] := by rw [hd, hd']
    exact (hfile trivial trivial heq).1

/-- The derivation tree of a text with the largest number a field can have, the smallest an enum
value can have, and an option. -/
def boundary : Grammar.file.Tree :=
  let field := (some ⟨⟨.keyword (.label .repeated), ⟨2, 11⟩⟩, rfl⟩,
    ⟨.scalar, ⟨⟨.keyword (.scalar .bool), ⟨2, 20⟩⟩, rfl⟩⟩, ⟨⟨.ident "b", ⟨2, 25⟩⟩, rfl⟩,
    ⟨⟨.punct .equals, ⟨2, 26⟩⟩, rfl⟩, ⟨⟨.int 2147483647, ⟨2, 27⟩⟩, rfl⟩, none,
    ⟨⟨.punct .semicolon, ⟨2, 37⟩⟩, rfl⟩)
  let option := (⟨⟨.keyword .option, ⟨3, 7⟩⟩, rfl⟩, ((⟨.plain, ⟨.ident "a", ⟨3, 14⟩⟩, rfl⟩, []),
    ⟨⟨.punct .equals, ⟨3, 15⟩⟩, rfl⟩, ⟨.negative, ⟨⟨.punct .minus, ⟨3, 16⟩⟩, rfl⟩,
    ⟨⟨.ident "inf", ⟨3, 17⟩⟩, rfl⟩⟩), ⟨⟨.punct .semicolon, ⟨3, 20⟩⟩, rfl⟩)
  let value := (⟨⟨.ident "A", ⟨4, 1⟩⟩, rfl⟩, ⟨⟨.punct .equals, ⟨4, 2⟩⟩, rfl⟩,
    ⟨true, ⟨⟨.punct .minus, ⟨4, 3⟩⟩, rfl⟩, ⟨⟨.int 2147483648, ⟨4, 4⟩⟩, rfl⟩⟩, none,
    ⟨⟨.punct .semicolon, ⟨4, 14⟩⟩, rfl⟩)
  let message := ((⟨⟨.keyword .message, ⟨2, 1⟩⟩, rfl⟩, ⟨⟨.ident "M", ⟨2, 9⟩⟩, rfl⟩,
    ⟨⟨.punct .openBrace, ⟨2, 10⟩⟩, rfl⟩),
    .plain ⟨.field, field⟩ (.close ⟨⟨.punct .closeBrace, ⟨2, 38⟩⟩, rfl⟩))
  let enum := (⟨⟨.keyword .enum, ⟨3, 1⟩⟩, rfl⟩, ⟨⟨.ident "E", ⟨3, 5⟩⟩, rfl⟩,
    ⟨⟨.punct .openBrace, ⟨3, 6⟩⟩, rfl⟩, [⟨.option, option⟩, ⟨.value, value⟩],
    ⟨⟨.punct .closeBrace, ⟨4, 15⟩⟩, rfl⟩)
  ((⟨⟨.keyword .edition, ⟨1, 1⟩⟩, rfl⟩, ⟨⟨.punct .equals, ⟨1, 7⟩⟩, rfl⟩,
    ⟨⟨.str "proto3", ⟨1, 8⟩⟩, rfl⟩, ⟨⟨.punct .semicolon, ⟨1, 16⟩⟩, rfl⟩,
    [⟨.message, message⟩, ⟨.enum, enum⟩]), ⟨⟨.eof, ⟨4, 16⟩⟩, rfl⟩)

/-- What the text declares. -/
def boundarySchema : Schema :=
  ⟨"proto3", [.message "M" 2 [.field ⟨some .repeated, .scalar .bool, "b", 2147483647, 2⟩],
    .enum ⟨"E", 3, [⟨"A", -2147483648, 4⟩]⟩]⟩

/-- The text is read as its tree says, and has no other. -/
theorem read_boundary_iff :
    let ts := Grammar.file.tokens boundary
    Terminated ts ∧ Schema.read ts = .ok boundarySchema ∧
    ∀ d, Grammar.file.tokens d = ts → d = boundary := by
  intro ts
  have hends : Terminated ts := ⟨ts.dropLast, ⟨.eof, ⟨4, 16⟩⟩, by decide, rfl, by decide⟩
  have hiff := read_eq_ok_iff hends
  exact ⟨hends, (hiff.1 _).mpr ⟨boundary, rfl, rfl⟩, fun d hd => hiff.2 d boundary hd rfl⟩

end Schemata
