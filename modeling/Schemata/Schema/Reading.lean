/-
Reading a declaration tree from tokens.

One reader per production of the grammar, each written above it.  The front token
alone decides which production applies, so nothing is ever read twice, and a refusal
stands at the token its production has no place for.  Options are read for their shape
and then forgotten.

The only production that contains itself is the body of a message.  Its recursion is
on the number of tokens left, and `bodyOf` therefore hands back the proof that tokens
were consumed; `members` is the reader without the proof, and `members_eq` is its
production.
-/
import Schemata.Schema
import Schemata.Schema.Reader

namespace Schemata

namespace Reader

/-! ### Leaves -/

/-- The word of an identifier. -/
def ident? : Token → Option String
  | .ident w => some w
  | _ => none

/-- The content of a string. -/
def str? : Token → Option String
  | .str s => some s
  | _ => none

/-- Reads `IDENT`. -/
def identifier : Reader String := take .identifier ident?

/-- Reads `STR`. -/
def string : Reader String := take .string str?

/-- Reads `IDENT ('.' IDENT)*`. -/
def dottedName : Reader (List String) := dotted .identifier ident?

/-- The number of a field or an enum value, if thirty-two bits hold it. -/
def number? (value : Int64) : Option Int32 :=
  if -0x80000000 ≤ value.toInt ∧ value.toInt < 0x80000000 then some value.toInt32 else none

theorem number?_eq_some {value : Int64} {k : Int32} :
    number? value = some k ↔ k.toInt = value.toInt := by
  unfold number?
  constructor
  · intro h
    split at h
    · rename_i hrange
      rw [← Option.some.inj h, ← Int32.ofInt_int64ToInt]
      exact Int32.toInt_ofInt_of_le hrange.1 hrange.2
    · cases h
  · intro h
    rw [← h, if_pos ⟨k.le_toInt, k.toInt_lt⟩, ← Int32.ofInt_int64ToInt, ← h, Int32.ofInt_toInt]

/-- The number an integer token stands for under its sign.  What does not fit is refused
at the token. -/
def integer (negative : Bool) : Reader Int32
  | [] => .error ⟨.expected .integer, []⟩
  | t :: ts =>
    match t.token with
    | .int n =>
      match number? (if negative then -n else n) with
      | some value => .ok (value, ts)
      | none =>
        if n = .maxValue then .error ⟨.literalOutOfRange, t :: ts⟩
        else .error ⟨.outOfRange (if negative then -n else n), t :: ts⟩
    | _ => .error ⟨.expected .integer, t :: ts⟩

/-- Reads `'-'? INT`. -/
def signedInteger : Reader Int32 := do
  let negative ← accept (.punct .minus)
  integer negative

/-! ### Options -/

/-- A segment of an option's name, reserved words included. -/
def segment? : Token → Option Unit
  | .ident _ => some ()
  | .keyword _ => some ()
  | _ => none

/-- Reads `SEG | '(' SEG ('.' SEG)* ')'`. -/
def optionHead : Reader Unit := do
  if ← accept (.punct .openParen) then
    let _ ← dotted .optionName segment?
    expect (.punct .closeParen)
  else
    take .optionName segment?

/-- Reads `optionHead ('.' SEG)*`. -/
def optionName : Reader Unit := do
  optionHead
  let _ ← dotTail .optionName segment?

/-- What may follow a minus sign in an option's value. -/
def signedValue? : Token → Option Unit
  | .int _ => some ()
  | .float _ => some ()
  | .ident _ => some ()
  | _ => none

/-- An option's value that is one token. -/
def literal? : Token → Option Unit
  | .int _ => some ()
  | .float _ => some ()
  | .str _ => some ()
  | _ => none

/-- Reads `'-' (INT | FLOAT | IDENT) | INT | FLOAT | STR | IDENT ('.' IDENT)*`. -/
def constant : Reader Unit := do
  if ← accept (.punct .minus) then
    take .signedNumber signedValue?
  else
    match ← peek with
    | .ident _ => let _ ← dottedName
    | _ => take .optionValue literal?

/-- Reads `optionName '=' constant`. -/
def assignment : Reader Unit := do
  optionName
  expect (.punct .equals)
  constant

/-- Reads `'option' assignment ';'`. -/
def optionStatement : Reader Unit := do
  expect (.keyword .option)
  assignment
  expect (.punct .semicolon)

/-- After an assignment in brackets: a comma goes on, a bracket closes. -/
def goesOn? : Token → Option Bool
  | .punct .comma => some true
  | .punct .closeBracket => some false
  | _ => none

/-! ### What the leaves and options consume -/

theorem takes_integer (negative : Bool) : Takes 1 (integer negative) := by
  intro ts v rest hp
  unfold integer at hp
  split at hp
  · cases hp
  · rename_i t ts
    split at hp
    · rename_i n ht
      split at hp
      · cases hp
        exact .one (by simp [ht]) _
      · split at hp <;> cases hp
    · cases hp

theorem takes_signedInteger : Takes 1 signedInteger :=
  takes_bind_free (takes_accept (by simp)) fun _ => takes_integer _

theorem takes_identifier : Takes 1 identifier := takes_take rfl

theorem takes_string : Takes 1 string := takes_take rfl

theorem takes_dottedName : Takes 1 dottedName := takes_dotted rfl

theorem takes_optionHead : Takes 1 optionHead := by
  refine takes_bind_free (takes_accept (by simp)) fun opened => ?_
  cases opened
  · exact takes_take rfl
  · exact (takes_bind (takes_dotted rfl) fun _ => takes_expect_punct _).weaken (by simp)

theorem takes_optionName : Takes 1 optionName :=
  takes_bind takes_optionHead fun _ => takes_bind (takes_dotTail rfl) fun _ => takes_pure _

theorem takes_constant : Takes 1 constant := by
  refine takes_bind_free (takes_accept (by simp)) fun negative => ?_
  cases negative
  · refine takes_bind_free takes_peek fun t => ?_
    cases t
    case ident => exact takes_bind takes_dottedName fun _ => takes_pure _
    all_goals exact takes_take rfl
  · exact takes_take rfl

theorem takes_assignment : Takes 1 assignment :=
  (takes_bind takes_optionName fun _ =>
    takes_bind (takes_expect_punct _) fun _ => takes_constant).weaken (by simp)

theorem takes_optionStatement : Takes 1 optionStatement :=
  (takes_bind (takes_expect_keyword _) fun _ =>
    takes_bind takes_assignment fun _ => takes_expect_punct _).weaken (by simp)

/-- An assignment and the separator after it: whether another one follows. -/
def separatedAssignment : Reader Bool := do
  assignment
  take .optionSeparator goesOn?

theorem takes_separatedAssignment : Takes 1 separatedAssignment :=
  (takes_bind takes_assignment fun _ => takes_take rfl).weaken (by simp)

/-- Reads `assignment (',' assignment)* ']'`. -/
def assignments : Reader Unit := fun ts =>
  match _h : separatedAssignment ts with
  | .error e => .error e
  | .ok (true, rest) => assignments rest
  | .ok (false, rest) => .ok ((), rest)
termination_by ts => ts.length
decreasing_by exact takes_separatedAssignment.shorter _h

theorem takes_assignments : Takes 1 assignments := by
  intro ts a rest hp
  fun_induction assignments ts with
  | case1 => cases hp
  | case2 ts mid hs ih => exact ((takes_separatedAssignment hs).trans (ih hp)).weaken (by simp)
  | case3 ts mid hs =>
    cases hp
    exact takes_separatedAssignment hs

/-- Reads `('[' assignments)?`. -/
def fieldOptions : Reader Unit := do
  if ← accept (.punct .openBracket) then assignments

theorem takes_fieldOptions : Takes 0 fieldOptions := by
  refine takes_bind_free (takes_accept (by simp)) fun opened => ?_
  cases opened
  · exact takes_pure _
  · exact takes_assignments.weaken (by simp)

/-! ### Fields and enums -/

/-- The label a token is. -/
def label? : Token → Option Label
  | .keyword (.label l) => some l
  | _ => none

/-- Reads `LABEL?`. -/
def optionalLabel : Reader (Option Label)
  | [] => .ok (none, [])
  | t :: ts =>
    match label? t.token with
    | some l => .ok (some l, ts)
    | none => .ok (none, t :: ts)

/-- The scalar type a token is. -/
def scalar? : Token → Option Scalar
  | .keyword (.scalar s) => some s
  | _ => none

/-- Reads `SCALAR | IDENT ('.' IDENT)*`. -/
def typeRef : Reader TypeRef := do
  match ← peek with
  | .ident _ => return .named (← dottedName)
  | _ => return .scalar (← take .fieldType scalar?)

/-- Reads `LABEL? typeRef IDENT '=' INT fieldOptions ';'`. -/
def field : Reader FieldDecl := do
  let line ← line
  let label? ← optionalLabel
  let type ← typeRef
  let name ← identifier
  expect (.punct .equals)
  let number ← integer false
  fieldOptions
  expect (.punct .semicolon)
  return { label?, type, name, number, line }

/-- Reads `IDENT '=' '-'? INT fieldOptions ';'`. -/
def enumValue : Reader ValueDecl := do
  let line ← line
  let name ← identifier
  expect (.punct .equals)
  let number ← signedInteger
  fieldOptions
  expect (.punct .semicolon)
  return { name, number, line }

/-- One entry of the body of the enum `name`: a value, or a statement that leaves
nothing. -/
def enumItem (name : String) : Reader (List ValueDecl) := do
  match ← peek with
  | .keyword .option => optionStatement; return []
  | .punct .semicolon => expect (.punct .semicolon); return []
  | .eof => refuse (.expected (.closeEnum name))
  | _ => return [← enumValue]

theorem takes_optionalLabel : Takes 0 optionalLabel := by
  intro ts l rest hp
  unfold optionalLabel at hp
  split at hp
  · cases hp
    exact .refl _
  · rename_i t ts
    split at hp
    · rename_i ht
      cases hp
      refine (Consumed.one (fun he => ?_) _).weaken (Nat.zero_le _)
      simp [he, label?] at ht
    · cases hp
      exact .refl _

theorem takes_typeRef : Takes 1 typeRef := by
  refine takes_bind_free takes_peek fun t => ?_
  cases t
  case ident => exact takes_bind takes_dottedName fun _ => takes_pure _
  all_goals exact takes_bind (takes_take rfl) fun _ => takes_pure _

theorem takes_field : Takes 1 field :=
  (takes_bind takes_line fun _ => takes_bind takes_optionalLabel fun _ =>
    takes_bind takes_typeRef fun _ => takes_bind takes_identifier fun _ =>
    takes_bind (takes_expect_punct _) fun _ => takes_bind (takes_integer _) fun _ =>
    takes_bind takes_fieldOptions fun _ => takes_bind (takes_expect_punct _) fun _ =>
    takes_pure _).weaken (by simp)

theorem takes_enumValue : Takes 1 enumValue :=
  (takes_bind takes_line fun _ => takes_bind takes_identifier fun _ =>
    takes_bind (takes_expect_punct _) fun _ => takes_bind takes_signedInteger fun _ =>
    takes_bind takes_fieldOptions fun _ => takes_bind (takes_expect_punct _) fun _ =>
    takes_pure _).weaken (by simp)

theorem takes_skipSemicolon {α : Type} (a : α) :
    Takes 1 (do expect (.punct .semicolon); return a : Reader α) :=
  takes_bind (takes_expect_punct _) fun _ => takes_pure _

theorem takes_skipOption {α : Type} (a : α) :
    Takes 1 (do optionStatement; return a : Reader α) :=
  takes_bind takes_optionStatement fun _ => takes_pure _

theorem takes_enumItem (name : String) : Takes 1 (enumItem name) := by
  refine takes_bind_free takes_peek fun t => ?_
  have value : Takes 1 (do return [← enumValue] : Reader (List ValueDecl)) :=
    takes_bind takes_enumValue fun _ => takes_pure _
  split
  · exact takes_skipOption _
  · exact takes_skipSemicolon _
  · exact takes_refuse _ _
  · exact value

/-- The end of a body. -/
def isCloseBrace (t : Token) : Bool := t = .punct .closeBrace

/-- Reads `'enum' IDENT '{' enumItem* '}'`. -/
def enum : Reader EnumDecl := do
  let line ← line
  expect (.keyword .enum)
  let name ← identifier
  expect (.punct .openBrace)
  let values ← manyUntil isCloseBrace (enumItem name) (takes_enumItem name)
  expect (.punct .closeBrace)
  return { name, line, values }

theorem takes_enum : Takes 1 enum :=
  (takes_bind takes_line fun _ => takes_bind (takes_expect_keyword _) fun _ =>
    takes_bind takes_identifier fun _ => takes_bind (takes_expect_punct _) fun _ =>
    takes_bind takes_manyUntil fun _ => takes_bind (takes_expect_punct _) fun _ =>
    takes_pure _).weaken (by simp)

/-! ### Messages -/

/-- Reads `'message' IDENT '{'`. -/
def messageHead : Reader String := do
  expect (.keyword .message)
  let name ← identifier
  expect (.punct .openBrace)
  return name

/-- One entry of a message's body that is no message itself. -/
def plainMember : Reader (List Member) := do
  match ← peek with
  | .keyword .enum => return [.enum (← enum)]
  | .keyword .option => optionStatement; return []
  | .punct .semicolon => expect (.punct .semicolon); return []
  | _ => return [.field (← field)]

theorem takes_messageHead : Takes 1 messageHead :=
  (takes_bind (takes_expect_keyword _) fun _ => takes_bind takes_identifier fun _ =>
    takes_bind (takes_expect_punct _) fun _ => takes_pure _).weaken (by simp)

theorem takes_plainMember : Takes 1 plainMember := by
  refine takes_bind_free takes_peek fun t => ?_
  split
  · exact takes_bind takes_enum fun _ => takes_pure _
  · exact takes_skipOption _
  · exact takes_skipSemicolon _
  · exact takes_bind takes_field fun _ => takes_pure _

/-- A value and the tokens left, fewer than those of `ts`. -/
abbrev Shorter (α : Type) (ts : List Located) :=
  { p : α × List Located // p.2.length < ts.length }

/-- The body of the message `name`, from behind its opening brace through its closing
one. -/
def bodyOf (name : String) (ts : List Located) : Except Refusal (Shorter (List Member) ts) :=
  match ts with
  | [] => .error ⟨.expected (.closeMessage name), []⟩
  | t :: us =>
    match t.token with
    | .punct .closeBrace => .ok ⟨([], us), by simp⟩
    | .eof => .error ⟨.expected (.closeMessage name), t :: us⟩
    | .keyword .message =>
      match hh : messageHead (t :: us) with
      | .error e => .error e
      | .ok (inner, rest) =>
        have h₁ : rest.length < (t :: us).length := takes_messageHead.shorter hh
        match bodyOf inner rest with
        | .error e => .error e
        | .ok ⟨(body, rest'), h₂⟩ =>
          have h₂ : rest'.length < rest.length := h₂
          match bodyOf name rest' with
          | .error e => .error e
          | .ok ⟨(later, last), h₃⟩ =>
            .ok ⟨(.message inner t.place.line body :: later, last),
              Nat.lt_trans h₃ (Nat.lt_trans h₂ h₁)⟩
    | _ =>
      match hm : plainMember (t :: us) with
      | .error e => .error e
      | .ok (now, rest) =>
        have h₁ : rest.length < (t :: us).length := takes_plainMember.shorter hm
        match bodyOf name rest with
        | .error e => .error e
        | .ok ⟨(later, last), h₂⟩ => .ok ⟨(now ++ later, last), Nat.lt_trans h₂ h₁⟩
termination_by ts.length
decreasing_by
  · exact h₁
  · exact Nat.lt_trans h₂ h₁
  · exact h₁

/-- Reads `(field | message | enum | option | ';')* '}'`, the rest of the message `name`
from behind its opening brace. -/
def members (name : String) : Reader (List Member) :=
  fun ts => (bodyOf name ts).map Subtype.val

/-- Reads `messageHead members`. -/
def message : Reader (String × Nat × List Member) := do
  let line ← line
  let name ← messageHead
  return (name, line, ← members name)

/-- The production `members` reads. -/
theorem members_eq (name : String) : members name = (do
    match ← peek with
    | .punct .closeBrace => expect (.punct .closeBrace); return []
    | .eof => refuse (.expected (.closeMessage name))
    | .keyword .message =>
      let (inner, line, body) ← message
      return .message inner line body :: (← members name)
    | _ => return (← plainMember) ++ (← members name) : Reader (List Member)) := by
  funext ts
  rw [show members name ts = (bodyOf name ts).map Subtype.val from rfl, bodyOf.eq_def]
  cases ts with
  | nil => rfl
  | cons t us =>
    obtain ⟨token, place⟩ := t
    simp only [peek, frontToken, bind, StateT.bind, Except.bind]
    split
    · rfl
    · rfl
    · simp only [message, line, frontLine, StateT.bind, bind, Except.bind]
      split
      · rename_i hh
        simp only [hh, Except.map]
      · rename_i inner rest hh
        simp only [hh, members]
        cases bodyOf inner rest with
        | error e => rfl
        | ok v =>
          obtain ⟨⟨body, rest'⟩, h₂⟩ := v
          simp only [Except.map, Reader.pure_apply]
          cases bodyOf name rest' with
          | error e => rfl
          | ok v => rfl
    · simp only [StateT.bind, bind, Except.bind]
      split
      · rename_i hh
        simp only [hh, Except.map]
      · rename_i now rest hh
        simp only [hh, members]
        cases bodyOf name rest with
        | error e => rfl
        | ok v => rfl

theorem bodyOf_consumed {name : String} {ts : List Located} {v : Shorter (List Member) ts}
    (h : bodyOf name ts = .ok v) : Consumed 1 ts v.1.2 := by
  fun_induction bodyOf name ts with
  | case1 => cases h
  | case2 name t us ht =>
    cases h
    exact .one (by simp [ht]) us
  | case3 => cases h
  | case4 => cases h
  | case5 => cases h
  | case6 => cases h
  | case7 name t us _ inner rest hh _ body rest' _ hbody _ later last _ hlater ihBody ihLater =>
    cases h
    exact ((takes_messageHead hh).trans ((ihBody hbody).trans (ihLater hlater))).weaken (by simp)
  | case8 => cases h
  | case9 => cases h
  | case10 name t us now rest hm _ later last _ hlater _ _ _ ih =>
    cases h
    exact ((takes_plainMember hm).trans (ih hlater)).weaken (by simp)

theorem takes_members (name : String) : Takes 1 (members name) := by
  intro ts a rest hp
  unfold members at hp
  cases hb : bodyOf name ts with
  | error e => simp [hb, Except.map] at hp
  | ok v =>
    simp only [hb, Except.map, Except.ok.injEq] at hp
    have := bodyOf_consumed hb
    rwa [hp] at this

theorem takes_message : Takes 1 message :=
  (takes_bind takes_line fun _ => takes_bind takes_messageHead fun _ =>
    takes_bind (takes_members _) fun _ => takes_pure _).weaken (by simp)

/-! ### The whole text -/

/-- Reads `('public' | 'weak')?`, the two words being identifiers. -/
def importKind : Reader ImportKind
  | [] => .ok (.plain, [])
  | t :: ts =>
    match t.token with
    | .ident "public" => .ok (.reexport, ts)
    | .ident "weak" => .ok (.weak, ts)
    | _ => .ok (.plain, t :: ts)

/-- Reads `'import' importKind STR ';'`. -/
def importStatement : Reader ImportDecl := do
  let line ← line
  expect (.keyword .importing)
  let kind ← importKind
  let path ← string
  expect (.punct .semicolon)
  return { path, kind, line }

/-- Reads `'package' IDENT ('.' IDENT)* ';'`. -/
def packageStatement : Reader Decl := do
  let line ← line
  expect (.keyword .package)
  let segments ← dottedName
  expect (.punct .semicolon)
  return .package (".".intercalate segments) line

/-- A statement at the top level: a declaration, or one that leaves nothing. -/
def statement : Reader (List Decl) := do
  match ← peek with
  | .keyword .importing => return [.importing (← importStatement)]
  | .keyword .package => return [← packageStatement]
  | .keyword .message =>
    let (name, line, body) ← message
    return [.message name line body]
  | .keyword .enum => return [.enum (← enum)]
  | .keyword .option => optionStatement; return []
  | .punct .semicolon => expect (.punct .semicolon); return []
  | _ => refuse (.expected .declaration)

theorem takes_importKind : Takes 0 importKind := by
  intro ts k rest hp
  unfold importKind at hp
  split at hp
  · cases hp
    exact .refl _
  · split at hp
    · rename_i ht
      cases hp
      exact (Consumed.one (by simp [ht]) _).weaken (Nat.zero_le _)
    · rename_i ht
      cases hp
      exact (Consumed.one (by simp [ht]) _).weaken (Nat.zero_le _)
    · cases hp
      exact .refl _

theorem takes_importStatement : Takes 1 importStatement :=
  (takes_bind takes_line fun _ => takes_bind (takes_expect_keyword _) fun _ =>
    takes_bind takes_importKind fun _ => takes_bind takes_string fun _ =>
    takes_bind (takes_expect_punct _) fun _ => takes_pure _).weaken (by simp)

theorem takes_packageStatement : Takes 1 packageStatement :=
  (takes_bind takes_line fun _ => takes_bind (takes_expect_keyword _) fun _ =>
    takes_bind takes_dottedName fun _ => takes_bind (takes_expect_punct _) fun _ =>
    takes_pure _).weaken (by simp)

theorem takes_statement : Takes 1 statement := by
  refine takes_bind_free takes_peek fun t => ?_
  split
  · exact takes_bind takes_importStatement fun _ => takes_pure _
  · exact takes_bind takes_packageStatement fun _ => takes_pure _
  · exact takes_bind takes_message fun _ => takes_pure _
  · exact takes_bind takes_enum fun _ => takes_pure _
  · exact takes_skipOption _
  · exact takes_skipSemicolon _
  · exact takes_refuse _ _

/-- The end of a text. -/
def isEof (t : Token) : Bool := t = .eof

/-- Reads `'syntax' '=' STR ';' statement*`, up to the end of input. -/
def schema : Reader Schema := do
  expect (.keyword .edition)
  expect (.punct .equals)
  let edition ← string
  expect (.punct .semicolon)
  let decls ← manyUntil isEof statement takes_statement
  return { edition, decls }

end Reader

/-- The tree a token list stands for.  The list must end with the end of input. -/
def Schema.read (ts : List Located) : Except Refusal Schema :=
  match ts.getLast? with
  | none => .error ⟨.unterminated, []⟩
  | some last =>
    if last.token = .eof then (Reader.schema ts).map Prod.fst
    else .error ⟨.unterminated, [last]⟩

end Schemata
